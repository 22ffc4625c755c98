import GitNfs.Wal.Markers

/-! # What the steps of a commit do to the logs

Every step leaves all but a few of the files of the WAL as they were.
-/

namespace GitNfs

/-! ## What the writes of a recovery leave alone -/

/-- The log whose files a write is one of. -/
def DurableWrite.log? : DurableWrite → Option Nat
  | .repo _ _ => none
  | .done seq _ => some seq
  | .pack seq _ => some seq
  | .idx seq _ => some seq

theorem DurableWrite.torn_log? {w w' : DurableWrite} {n : Nat} (h : w.torn n = some w') :
    w'.log? = w.log? ∧ w'.log?.isSome := by
  cases w <;> simp only [torn, Option.some.injEq, reduceCtorEq] at h <;> subst h <;> exact ⟨rfl, rfl⟩

/-- Two states in which a log has the same marker, pack and index. -/
def SameFiles (d d' : Durable) (i : Nat) : Prop :=
  d'.wal.done i = d.wal.done i ∧ d'.wal.pack i = d.wal.pack i ∧ d'.wal.idx i = d.wal.idx i

theorem sameFiles_write (d : Durable) {w : DurableWrite} {i : Nat} (h : w.log? ≠ some i) :
    SameFiles d (d.write w) i := by
  have hne {seq : Nat} (hseq : some seq ≠ some i) : i ≠ seq := fun heq => hseq (heq ▸ rfl)
  cases w with
  | repo name data => exact ⟨rfl, rfl, rfl⟩
  | done seq data => exact ⟨Function.update_of_ne (hne h) _ _, rfl, rfl⟩
  | pack seq data => exact ⟨rfl, Function.update_of_ne (hne h) _ _, rfl⟩
  | idx seq data => exact ⟨rfl, rfl, Function.update_of_ne (hne h) _ _⟩

/-- What every write of a list keeps, whole or torn, is kept wherever the writes break off. -/
theorem crash_induction {P : Durable → Prop} (ws : List DurableWrite) (p : CrashPoint)
    (hwrite : ∀ d, ∀ w ∈ ws, P d → P (d.write w))
    (htorn : ∀ d, ∀ w ∈ ws, ∀ n w', w.torn n = some w' → P d → P (d.write w')) (d : Durable) (hd : P d) :
    P (d.crash ws p) := by
  have hstart : ∀ (vs : List DurableWrite), (∀ w ∈ vs, w ∈ ws) → ∀ d, P d → P (d.writes vs) := by
    intro vs
    induction vs with
    | nil => exact fun _ d hd => hd
    | cons w vs ih =>
      intro hvs d hd
      exact ih (fun x hx => hvs x (List.mem_cons_of_mem _ hx)) _ (hwrite d w (hvs w List.mem_cons_self) hd)
  have hbefore := hstart (ws.take p.writes) (fun w hw => List.mem_of_mem_take hw) d hd
  unfold Durable.crash
  simp only
  split
  · rename_i n w _ hnext
    cases hw : w.torn n with
    | none => exact hbefore
    | some w' => exact htorn _ w (List.mem_of_getElem? hnext) n w' hw hbefore
  · exact hbefore

theorem crash_sameFiles (d : Durable) (ws : List DurableWrite) (p : CrashPoint) (i : Nat)
    (h : ∀ w ∈ ws, w.log? ≠ some i) : SameFiles d (d.crash ws p) i := by
  refine crash_induction (P := fun e => SameFiles d e i) ws p (fun e w hw he => ?_)
    (fun e w hw n w' htorn he => ?_) d ⟨rfl, rfl, rfl⟩
  · obtain ⟨h₁, h₂, h₃⟩ := sameFiles_write e (h w hw)
    exact ⟨h₁.trans he.1, h₂.trans he.2.1, h₃.trans he.2.2⟩
  · obtain ⟨h₁, h₂, h₃⟩ := sameFiles_write e ((DurableWrite.torn_log? htorn).1 ▸ h w hw)
    exact ⟨h₁.trans he.1, h₂.trans he.2.1, h₃.trans he.2.2⟩

/-- The logs themselves are never written by a recovery. -/
theorem crash_logs (d : Durable) (ws : List DurableWrite) (p : CrashPoint) :
    (d.crash ws p).wal.logs = d.wal.logs ∧ (d.crash ws p).wal.kind = d.wal.kind := by
  have hwrite (e : Durable) (w : DurableWrite) :
      (e.write w).wal.logs = e.wal.logs ∧ (e.write w).wal.kind = e.wal.kind := by
    cases w <;> exact ⟨rfl, rfl⟩
  refine crash_induction (P := fun e => e.wal.logs = d.wal.logs ∧ e.wal.kind = d.wal.kind) ws p
    (fun e w _ he => ?_) (fun e _ _ _ w' _ he => ?_) d ⟨rfl, rfl⟩
  · exact ⟨(hwrite e w).1.trans he.1, (hwrite e w).2.trans he.2⟩
  · exact ⟨(hwrite e w').1.trans he.1, (hwrite e w').2.trans he.2⟩

theorem crash_repo (d : Durable) (ws : List DurableWrite) (p : CrashPoint)
    (h : ∀ w ∈ ws, w.log?.isSome) : (d.crash ws p).repo = d.repo := by
  have hwrite (e : Durable) (w : DurableWrite) (hw : w.log?.isSome) : (e.write w).repo = e.repo := by
    cases w with
    | repo => simp [DurableWrite.log?] at hw
    | done => rfl
    | pack => rfl
    | idx => rfl
  refine crash_induction (P := fun e => e.repo = d.repo) ws p (fun e w hw he => ?_)
    (fun e w hw n w' htorn he => ?_) d rfl
  · exact (hwrite e w (h w hw)).trans he
  · exact (hwrite e w' (DurableWrite.torn_log? htorn).2).trans he

/-- A recovery writes the files of the logs that it replayed, and no others. -/
theorem recoveryWrites_log? {g : GitEngine} {d : Durable} {branch : Option Str} {seqs : List Nat}
    {built : Option RecoveredPackResult} {w : DurableWrite} (h : w ∈ recoveryWrites g d branch seqs built)
    {i : Nat} (hi : w.log? = some i) : i ∈ seqs := by
  have hmark {oid : Str} {pack idx : Option Bytes}
      (h : w ∈ seqs.flatMap fun seq => markLogDone seq oid pack idx) : i ∈ seqs := by
    obtain ⟨seq, hseq, hw⟩ := List.mem_flatMap.mp h
    simp only [markLogDone, List.mem_cons, List.mem_append, Option.mem_toList, Option.map_eq_some_iff] at hw
    rcases hw with rfl | ⟨b, -, rfl⟩ | ⟨b, -, rfl⟩ <;>
    · simp only [DurableWrite.log?, Option.some.injEq] at hi
      exact hi ▸ hseq
  cases built with
  | none => exact hmark h
  | some res =>
    rcases List.mem_append.mp h with h | h
    · split_ifs at h
      · obtain ⟨x, -, rfl⟩ := List.mem_map.mp h
        simp [DurableWrite.log?] at hi
      · simp at h
    · exact hmark h

/-- The objects of a commit are somewhere: published, or with one of the logs it was built from. -/
def Durable.HasCommit (d : Durable) (gcs : Bool) (seqs : List Nat) (c : PackedCommit) : Prop :=
  (gcs = true ∧ Published d c) ∨ ∃ seq ∈ seqs, Stored d seq c

instance (d : Durable) (c : PackedCommit) : Decidable (Published d c) :=
  inferInstanceAs (Decidable (_ ∧ _))

instance (d : Durable) (seq : Nat) (c : PackedCommit) : Decidable (Stored d seq c) :=
  inferInstanceAs (Decidable (_ ∧ _))

instance (d : Durable) (gcs : Bool) (seqs : List Nat) (c : PackedCommit) :
    Decidable (d.HasCommit gcs seqs c) :=
  inferInstanceAs (Decidable (_ ∨ _))

/-- The failure does not leave the first log marked without its pack and index. -/
def CrashPoint.SparesFirst (p : CrashPoint) : Prop := p = ⟨0, none⟩ ∨ 3 ≤ p.writes

theorem closeLog_isSome (c : PackedCommit) (seqs : List Nat) (w : DurableWrite)
    (hw : w ∈ seqs.flatMap (closeLog c)) : w.log?.isSome := by
  obtain ⟨seq, -, rfl | rfl | rfl⟩ := mem_closeLogs hw <;> rfl

/-- Once a recovery has marked a log for a commit, the objects of the commit are somewhere. -/
theorem recovery_hasCommit (g : GitEngine) (d : Durable) (branch : Option Str) (seqs : List Nat)
    (res : RecoveredPackResult) (p : CrashPoint) (hnodup : seqs.Nodup)
    (hp : g.gcsStorage = true ∨ p.SparesFirst) :
    let d' := d.crash (recoveryWrites g d branch seqs (some res)) p
    d'.wal.done = d.wal.done ∨ d'.HasCommit g.gcsStorage seqs res.packed := by
  have hclose : (seqs.flatMap fun seq =>
      markLogDone seq res.commitOid (some res.packData) (some res.idxData)) =
      seqs.flatMap (closeLog res.packed) := rfl
  cases hgcs : g.gcsStorage with
  | true =>
    simp only [recoveryWrites, hgcs, if_true, hclose]
    generalize hrepo : d.repo.completedCommitWrites res.commitOid res.packSha res.packData res.idxData
      branch = ws
    by_cases hlt : p.writes < ws.length
    · left
      rw [repoCrash_eq _ _ _ _ hlt, repoWrites_wal]
    · right
      obtain ⟨k, hk⟩ := Nat.exists_eq_add_of_le (not_lt.mp hlt)
      have hpoint : p = ⟨(ws.map fun w => DurableWrite.repo w.1 w.2).length + k, p.torn⟩ := by
        rw [List.length_map, ← hk]
      have hpub := published_of_writes d res.packed branch
      simp only [RecoveredPackResult.packed] at hpub
      rw [hrepo] at hpub
      refine .inl ⟨rfl, ?_⟩
      rw [hpoint, crash_append, Published, crash_repo _ _ _ (closeLog_isSome _ _)]
      exact hpub
  | false =>
    rw [hgcs] at hp
    simp only [recoveryWrites, hgcs, Bool.false_eq_true, if_false, List.nil_append, hclose]
    rcases hp.resolve_left (by simp) with rfl | hp
    · exact .inl rfl
    · cases seqs with
      | nil => exact .inl (by rw [List.flatMap_nil, crash_nil])
      | cons seq seqs =>
        right
        obtain ⟨k, hk⟩ := Nat.exists_eq_add_of_le hp
        have hpoint : p = ⟨(closeLog res.packed seq).length + k, p.torn⟩ := by
          have hlen : (closeLog res.packed seq).length = 3 := rfl
          rw [hlen, ← hk]
        rw [List.flatMap_cons, hpoint, crash_append]
        refine .inr ⟨seq, List.mem_cons_self, ?_⟩
        obtain ⟨-, hpack, hidx⟩ := crash_sameFiles (d.writes (closeLog res.packed seq))
          (seqs.flatMap (closeLog res.packed)) ⟨k, p.torn⟩ seq (fun w hw => by
            obtain ⟨i, hi, rfl | rfl | rfl⟩ := mem_closeLogs hw <;>
            · simp only [DurableWrite.log?, ne_eq, Option.some.injEq]
              rintro rfl
              exact (List.nodup_cons.mp hnodup).1 hi)
        rw [Stored, hpack, hidx, closeLog_eq]
        simp [Durable.writes, Durable.write]

/-! ## Logs and markers -/

/-- An entry of a log that is not marked done. -/
def WalStore.Pending (s : WalStore) (e : WalEntry) : Prop :=
  ∃ seq, s.done seq = none ∧ e ∈ s.logEntries seq

/-- Logs up to a sequence number, and no marker without its log. -/
structure WalStore.Bounded (s : WalStore) (n : Nat) : Prop where
  below : ∀ i, i ∈ s.logs → i ≤ n
  marked : ∀ i, s.done i ≠ none → i ∈ s.logs

theorem WalStore.SameLogs.bounded {s t : WalStore} (h : SameLogs s t) {n : Nat} (hs : s.Bounded n) :
    t.Bounded n :=
  ⟨fun i hi => hs.below i ((h.mem i).mp hi), fun i hi => (h.mem i).mpr (hs.marked i (h.done ▸ hi))⟩

theorem WalStore.SameLogs.pending {s t : WalStore} (h : SameLogs s t) {e : WalEntry} :
    t.Pending e ↔ s.Pending e := by
  simp only [WalStore.Pending, h.done, h.logEntries]

theorem WalStore.mem_of_logEntries {s : WalStore} {e : WalEntry} {i : Nat} (h : e ∈ s.logEntries i) :
    i ∈ s.logs := by
  unfold WalStore.logEntries at h
  split at h
  · rename_i hlog
    exact AList.lookup_isSome.mp (by rw [hlog]; rfl)
  · simp at h

theorem finalizeActiveWal_effect (m : WalManager) (s : WalStore) (fails : Bool) :
    WalStore.SameLogs s (m.finalizeActiveWal s fails).2.2 ∧
      (m.finalizeActiveWal s fails).2.1 = { m with activeWriter := none } := by
  unfold WalManager.finalizeActiveWal
  split
  · rename_i hnone
    exact ⟨.refl s, by rw [← hnone]⟩
  · exact ⟨s.finalizeWriter_sameLogs _ _, rfl⟩

/-- Two stores that differ in one log at most. -/
structure WalStore.OnlyLog (s t : WalStore) (seq : Nat) : Prop where
  kind : t.kind = s.kind
  done : t.done = s.done
  pack : t.pack = s.pack
  idx : t.idx = s.idx
  other : ∀ i, i ≠ seq → t.logs.lookup i = s.logs.lookup i

namespace WalStore.OnlyLog

variable {s t u : WalStore} {seq : Nat}

theorem refl (s : WalStore) (seq : Nat) : OnlyLog s s seq := ⟨rfl, rfl, rfl, rfl, fun _ _ => rfl⟩

theorem trans (h : OnlyLog s t seq) (h' : OnlyLog t u seq) : OnlyLog s u seq :=
  ⟨h'.kind.trans h.kind, h'.done.trans h.done, h'.pack.trans h.pack, h'.idx.trans h.idx,
    fun i hi => (h'.other i hi).trans (h.other i hi)⟩

theorem setLog (s : WalStore) (seq : Nat) (log : LogFile) : OnlyLog s (s.setLog seq log) seq :=
  ⟨rfl, rfl, rfl, rfl, fun _ hi => AList.lookup_insert_ne hi⟩

theorem mem (h : OnlyLog s t seq) {i : Nat} (hi : i ≠ seq) : i ∈ t.logs ↔ i ∈ s.logs := by
  rw [← AList.lookup_isSome, ← AList.lookup_isSome, h.other i hi]

/-- An entry of any other log is where it was. -/
theorem pending (h : OnlyLog s t seq) (hfresh : seq ∉ s.logs) {e : WalEntry} (he : s.Pending e) :
    t.Pending e := by
  obtain ⟨i, hdone, hmem⟩ := he
  have hi : i ≠ seq := fun heq => hfresh (heq ▸ mem_of_logEntries hmem)
  exact ⟨i, h.done ▸ hdone, by rw [logEntries, h.other i hi]; exact hmem⟩

end WalStore.OnlyLog

theorem openWriter_effect (s : WalStore) (seq : Nat) :
    WalStore.OnlyLog s (s.openWriter seq).2 seq ∧ ((s.openWriter seq).1.isOk = true →
      ∃ log, (s.openWriter seq).2.logs.lookup seq = some log ∧ log.sealed = false) := by
  unfold WalStore.openWriter
  split
  · rename_i log _ hlog
    split_ifs with hseal
    · exact ⟨.refl s seq, by simp [Except.isOk, Except.toBool]⟩
    · exact ⟨.refl s seq, fun _ => ⟨log, hlog, by simpa using hseal⟩⟩
  · exact ⟨.setLog s seq _, fun _ => ⟨⟨[], false⟩, AList.lookup_insert _, rfl⟩⟩

theorem appendEntry_effect {s s' : WalStore} {seq : Nat} {entry : WalEntry} {fault : Option AppendFault}
    {res : Except Error Unit} (h : s.appendEntry seq entry fault = (res, s')) :
    WalStore.OnlyLog s s' seq ∧ ∀ log, s.logs.lookup seq = some log →
      ∃ log', s'.logs.lookup seq = some log' ∧ log'.sealed = log.sealed := by
  have hquiet : s' = s → WalStore.OnlyLog s s' seq ∧ ∀ log, s.logs.lookup seq = some log →
      ∃ log', s'.logs.lookup seq = some log' ∧ log'.sealed = log.sealed := by
    rintro rfl
    exact ⟨.refl s' seq, fun log hlog => ⟨log, hlog, rfl⟩⟩
  unfold WalStore.appendEntry at h
  split at h
  · exact hquiet (congrArg Prod.snd h).symm
  · rename_i log hlog
    have hadded : s' = s.setLog seq { log with entries := log.entries ++ [entry] } →
        WalStore.OnlyLog s s' seq ∧ ∀ log, s.logs.lookup seq = some log →
          ∃ log', s'.logs.lookup seq = some log' ∧ log'.sealed = log.sealed := by
      rintro rfl
      refine ⟨.setLog s seq _, fun l hl => ⟨_, AList.lookup_insert _, ?_⟩⟩
      rw [Option.some.inj (hl.symm.trans hlog)]
    split_ifs at h
    · exact hquiet (congrArg Prod.snd h).symm
    · split at h
      · exact hquiet (congrArg Prod.snd h).symm
      · exact hadded (congrArg Prod.snd h).symm
      · exact hadded (congrArg Prod.snd h).symm

/-- Starting a log touches that log alone, and a writer is had for one that is open. -/
theorem startActiveWal_effect (m : WalManager) (s : WalStore) (now : Nat) (repoUrl base author message : Str)
    (fault : Option StartFault) :
    let r := m.startActiveWal s now repoUrl base author message fault
    WalStore.OnlyLog s r.2.2 m.activeSeq ∧ r.2.1.activeSeq = m.activeSeq ∧
      ∀ q, r.2.1.activeWriter = some q → m.activeWriter = some q ∨
        q = m.activeSeq ∧ ∃ log, r.2.2.logs.lookup q = some log ∧ log.sealed = false := by
  obtain ⟨honly, hopen⟩ := openWriter_effect s m.activeSeq
  unfold WalManager.startActiveWal
  simp only
  split
  · rename_i hres
    split_ifs at hres with hf
    · simp only [Prod.mk.injEq] at hres
      exact ⟨hres.2 ▸ .refl _ _, rfl, fun q hq => .inl hq⟩
    · rw [hres] at honly
      exact ⟨honly, rfl, fun q hq => .inl hq⟩
  · rename_i s' hres
    split_ifs at hres with hf
    · simp at hres
    rw [hres] at honly hopen
    obtain ⟨log, hlog, hunsealed⟩ := hopen rfl
    split
    · rename_i happend
      obtain ⟨honly', -⟩ := appendEntry_effect happend
      exact ⟨honly.trans honly', rfl, fun q hq => .inl hq⟩
    · rename_i happend
      obtain ⟨honly', hkeep⟩ := appendEntry_effect happend
      refine ⟨honly.trans honly', rfl, fun q hq => .inr ?_⟩
      simp only [Option.some.injEq] at hq
      obtain ⟨log', hlog', hseal⟩ := hkeep log hlog
      exact ⟨hq.symm, log', hq ▸ hlog', hseal.trans hunsealed⟩

theorem recoveryWrites_length (g : GitEngine) (d : Durable) (branch : Option Str) (seqs : List Nat)
    (res : RecoveredPackResult) (h : seqs ≠ []) :
    3 ≤ (recoveryWrites g d branch seqs (some res)).length := by
  cases seqs with
  | nil => exact absurd rfl h
  | cons seq seqs =>
    simp only [recoveryWrites, markLogDone, List.flatMap_cons, List.length_append, List.length_cons,
      Option.map_some, Option.toList_some, List.length_nil]
    omega

/-- What a recovery does to the logs: only those that it replayed are marked, and if any is, the commit it
built is somewhere. -/
theorem recover_effect {zlib : Bytes → Bytes} {g : GitEngine} {d d' : Durable} {cfg : RecoverConfig}
    {faults : RecoverFaults} {res : Except Error (Option RecoveredPackResult)}
    (h : recoverAndReplayUncommitted zlib g d cfg faults = some (res, d')) :
    let seqs := uncommittedSeqs d.wal faults
    d'.wal.kind = d.wal.kind ∧ d'.wal.logEntries = d.wal.logEntries ∧
      (∀ i, i ∈ d'.wal.logs ↔ i ∈ d.wal.logs) ∧ (∀ i, i ∉ seqs → d'.wal.done i = d.wal.done i) ∧
      (d'.wal.done = d.wal.done ∨
        ∃ built, buildRecovery zlib g d.wal cfg faults seqs = some (.ok built) ∧
          ∀ c, built = some c → (g.gcsStorage = true ∨ ∀ p, faults.writes = some p → p.SparesFirst) →
            d'.wal.done = d.wal.done ∨ d'.HasCommit g.gcsStorage seqs c.packed) := by
  intro seqs
  have hnodup : seqs.Nodup :=
    ((List.perm_insertionSort _ _).nodup_iff.mpr d.wal.logs.keys_nodup).filter _
  obtain ⟨store, hsame, hend⟩ := recover_cases h
  have hquiet : d' = { d with wal := store } → d'.wal.kind = d.wal.kind ∧
      d'.wal.logEntries = d.wal.logEntries ∧ (∀ i, i ∈ d'.wal.logs ↔ i ∈ d.wal.logs) ∧
      (∀ i, i ∉ seqs → d'.wal.done i = d.wal.done i) ∧ d'.wal.done = d.wal.done := by
    rintro rfl
    exact ⟨hsame.kind, hsame.logEntries, hsame.mem, fun i _ => congrFun hsame.done i, hsame.done⟩
  rcases hend with ⟨e, -, hd'⟩ | ⟨-, -, hd'⟩ | ⟨built, hne, hbuild, hwrites⟩
  · obtain ⟨h₁, h₂, h₃, h₄, h₅⟩ := hquiet hd'
    exact ⟨h₁, h₂, h₃, h₄, .inl h₅⟩
  · obtain ⟨h₁, h₂, h₃, h₄, h₅⟩ := hquiet hd'
    exact ⟨h₁, h₂, h₃, h₄, .inl h₅⟩
  · rw [hsame.uncommittedSeqs] at hne hbuild hwrites
    rw [hsame.buildRecovery] at hbuild
    obtain ⟨p, hp, hd'⟩ : ∃ p : CrashPoint, (faults.writes = some p ∨
        p = ⟨(recoveryWrites g { d with wal := store } cfg.branch seqs built).length, none⟩) ∧
        d' = Durable.crash { d with wal := store }
          (recoveryWrites g { d with wal := store } cfg.branch seqs built) p := by
      rcases hwrites with ⟨-, hd'⟩ | ⟨p, hp, -, -, hd'⟩
      · exact ⟨_, .inr rfl, hd'.trans (crash_all _ _).symm⟩
      · exact ⟨p, .inl hp, hd'⟩
    obtain ⟨hlogs, hkind⟩ := crash_logs { d with wal := store }
      (recoveryWrites g { d with wal := store } cfg.branch seqs built) p
    rw [← hd'] at hlogs hkind
    refine ⟨hkind.trans hsame.kind, ?_, fun i => ?_, fun i hi => ?_, .inr ⟨built, hbuild, fun c hc hsafe => ?_⟩⟩
    · rw [← hsame.logEntries]
      funext i
      rw [WalStore.logEntries, WalStore.logEntries, hlogs]
    · rw [hlogs]
      exact hsame.mem i
    · rw [hd', (crash_sameFiles _ _ _ i fun w hw hlog => hi (recoveryWrites_log? hw hlog)).1]
      exact congrFun hsame.done i
    · subst hc
      have hspares : g.gcsStorage = true ∨ p.SparesFirst := by
        rcases hsafe with hgcs | hsafe
        · exact .inl hgcs
        · rcases hp with hp | rfl
          · exact .inr (hsafe p hp)
          · refine .inr (.inr ?_)
            exact recoveryWrites_length _ _ _ _ _ hne
      rw [hd', ← hsame.done]
      exact recovery_hasCommit g _ cfg.branch seqs c p hnodup hspares

/-- The log of a server that starts is beyond every log that is there. -/
theorem le_activeSeq (s : WalStore) {i : Nat} (hi : i ∈ s.logs) :
    i < s.listLogSequences.getLast?.elim 0 (· + 1) := by
  have hmem : i ∈ s.listLogSequences := (s.mem_listLogSequences i).mpr hi
  have hsorted : s.listLogSequences.Pairwise (· ≤ ·) := List.pairwise_insertionSort _ _
  have hle := hsorted.rel_getLast hmem
  rw [List.getLast?_eq_some_getLast (List.ne_nil_of_mem hmem)]
  exact Nat.lt_succ_of_le hle

end GitNfs
