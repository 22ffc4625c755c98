import GitNfs.Lib.Run
import GitNfs.Nfs.Handlers
import GitNfs.Wal.Effects
import GitNfs.Wal.Trace

/-! # What was acknowledged is kept

One server answers requests and commits now and then. An attempt to commit may fail at any of its steps,
and a later one goes on from what it left.
-/

namespace GitNfs

/-! ## Runs of one server -/

/-- A server, what it has stored, and what its clients and its log were told. -/
structure Ledger where
  server : Server
  durable : Durable
  /-- When a mutation was answered with success, and what its handler gave to the log. -/
  acked : List (Nat × Option WalPayload)
  /-- The entries that were replayed into commits whose objects are somewhere. -/
  committed : List WalEntry

inductive LedgerAction where
  | mutate (now : Nat) (op : NfsOp) (fault : Option IoFault)
  | commit (now : Nat) (dirLen : Option Nat) (isShutdown : Bool) (faults : CommitFaults)

namespace Ledger

/-- The entries that a recovery replays. -/
def replayed (l : Ledger) (faults : RecoverFaults) : List WalEntry :=
  (uncommittedSeqs l.durable.wal faults).flatMap l.durable.wal.logEntries

/-- The replayed entries, if the commit that is built of them is somewhere afterwards. -/
def produced (cfg : ServerConfig) (l : Ledger) (now : Nat) (faults : RecoverFaults) (d' : Durable) :
    List WalEntry :=
  let seqs := uncommittedSeqs l.durable.wal faults
  match buildRecovery cfg.zlib l.server.engine l.durable.wal (l.server.recoverConfig cfg now) faults seqs with
  | some (.ok (some res)) =>
    if d'.HasCommit l.server.engine.gcsStorage seqs res.packed then l.replayed faults else []
  | _ => []

def step (cfg : ServerConfig) (l : Ledger) : LedgerAction → Option Ledger
  | .mutate now op fault =>
    match l.server.fs.handle l.server.engine now fault op with
    | none => none
    | some h =>
      let (server, durable) := { l.server with fs := h.fs }.log l.durable now none h.logged
      let acked :=
        if op.isMutation && h.answer.isOk then (now, h.logged) :: l.acked else l.acked
      some { l with server, durable, acked }
  | .commit now dirLen isShutdown faults =>
    match performCommit cfg l.server l.durable now dirLen isShutdown faults with
    | none => none
    | some (_, server, durable) =>
      some { l with server, durable
                    committed := l.produced cfg now faults.recover durable ++ l.committed }

/-- Every acknowledged mutation is in a log that will be recovered, or it is in a commit. -/
def Kept (l : Ledger) : Prop :=
  ∀ a ∈ l.acked, ∃ e : WalEntry, e.timestampUnixNanos = a.1 ∧ e.payload = a.2 ∧ e.payload.isSome ∧
    (l.durable.wal.Pending e ∨ e ∈ l.committed)

/-- A mutation finds a writer. An attempt to commit finds no mutation to lose, or one that leaves a trace,
and it does not fail between the marker of the first log and its pack and index unless the commit is out. -/
def Safe (l : Ledger) : LedgerAction → Prop
  | .mutate _ _ _ => l.server.wal.activeWriter.isSome
  | .commit _ _ _ faults =>
    (∀ e ∈ l.replayed faults.recover, e.payload.all WalPayload.isHeader) ∨
    ((∃ e ∈ l.replayed faults.recover, e.leavesTrace = true) ∧
      (l.server.engine.gcsStorage = true ∨ ∀ p, faults.recover.writes = some p → p.SparesFirst))

end Ledger

/-! ### One attempt -/

/-- An attempt to commit: the log is finalized, then the recovery runs, then perhaps a new log is started. -/
theorem performCommit_cases {cfg : ServerConfig} {s s' : Server} {d d' : Durable} {now : Nat}
    {dirLen : Option Nat} {isShutdown : Bool} {faults : CommitFaults}
    {res : Except Error (Option RecoveredPackResult)}
    (h : performCommit cfg s d now dirLen isShutdown faults = some (res, s', d')) :
    ∃ store, WalStore.SameLogs d.wal store ∧ s'.fs.vfs = s.fs.vfs ∧
      ((s'.wal = { s.wal with activeWriter := none } ∧ d' = { d with wal := store }) ∨
       ∃ r d₁, recoverAndReplayUncommitted cfg.zlib s.engine { d with wal := store }
          (s.recoverConfig cfg now) faults.recover = some (r, d₁) ∧
        ((s'.wal = { s.wal with activeWriter := none } ∧ d' = d₁) ∨
         ∃ base started, started = WalManager.startActiveWal
            (WalManager.advanceSeq { s.wal with activeWriter := none }) d₁.wal now cfg.repoIdentifier base
            cfg.author [] faults.start ∧
          s'.wal = started.2.1 ∧ d' = { d₁ with wal := started.2.2 })) := by
  obtain ⟨hsame, hm⟩ := finalizeActiveWal_effect s.wal d.wal faults.finalize
  unfold performCommit at h
  split at h
  · rename_i hfin
    rw [hfin] at hsame hm
    simp only [Option.some.injEq, Prod.mk.injEq] at h
    obtain ⟨-, rfl, rfl⟩ := h
    exact ⟨_, hsame, rfl, .inl ⟨hm, rfl⟩⟩
  · rename_i m store hfin
    rw [hfin] at hsame hm
    simp only at hm
    subst hm
    refine ⟨store, hsame, ?_⟩
    simp only at h
    split at h
    · simp at h
    · rename_i hrec
      simp only [Option.some.injEq, Prod.mk.injEq] at h
      obtain ⟨-, rfl, rfl⟩ := h
      exact ⟨rfl, .inr ⟨_, _, hrec, .inl ⟨rfl, rfl⟩⟩⟩
    · rename_i d₁ hrec
      split_ifs at h
      · simp only [Option.some.injEq, Prod.mk.injEq] at h
        obtain ⟨-, rfl, rfl⟩ := h
        exact ⟨rfl, .inr ⟨_, _, hrec, .inl ⟨rfl, rfl⟩⟩⟩
      · simp only [Option.some.injEq, Prod.mk.injEq] at h
        obtain ⟨-, rfl, rfl⟩ := h
        exact ⟨rfl, .inr ⟨_, _, hrec, .inr ⟨_, _, rfl, rfl, rfl⟩⟩⟩
    · rename_i c d₁ hrec
      split_ifs at h
      · simp only [Option.some.injEq, Prod.mk.injEq] at h
        obtain ⟨-, rfl, rfl⟩ := h
        exact ⟨rfl, .inr ⟨_, _, hrec, .inl ⟨rfl, rfl⟩⟩⟩
      · split at h
        · simp only [Option.some.injEq, Prod.mk.injEq] at h
          obtain ⟨-, rfl, rfl⟩ := h
          exact ⟨rfl, .inr ⟨_, _, hrec, .inl ⟨rfl, rfl⟩⟩⟩
        · simp only [Option.some.injEq, Prod.mk.injEq] at h
          obtain ⟨-, rfl, rfl⟩ := h
          exact ⟨rfl, .inr ⟨_, _, hrec, .inl ⟨rfl, rfl⟩⟩⟩
      · split at h
        · simp only [Option.some.injEq, Prod.mk.injEq] at h
          obtain ⟨-, rfl, rfl⟩ := h
          exact ⟨rfl, .inr ⟨_, _, hrec, .inl ⟨rfl, rfl⟩⟩⟩
        · simp only [Option.some.injEq, Prod.mk.injEq] at h
          obtain ⟨-, rfl, rfl⟩ := h
          exact ⟨rfl, .inr ⟨_, _, hrec, .inr ⟨_, _, rfl, rfl, rfl⟩⟩⟩

/-! ### The invariant -/

namespace Ledger

/-- An acknowledged mutation, as an entry that is not a header. -/
def Found (l : Ledger) (a : Nat × Option WalPayload) : Prop :=
  ∃ e : WalEntry, e.timestampUnixNanos = a.1 ∧ e.payload = a.2 ∧ e.payload.all WalPayload.isHeader = false ∧
    (l.durable.wal.Pending e ∨ e ∈ l.committed)

structure Sound (l : Ledger) : Prop where
  wellFormed : l.server.fs.vfs.WellFormed
  bounded : l.durable.wal.Bounded l.server.wal.activeSeq
  /-- The writer has a log that is not done, and that the bucket takes data for. -/
  active : ∀ q, l.server.wal.activeWriter = some q → l.durable.wal.done q = none ∧
    ∃ log, l.durable.wal.logs.lookup q = some log ∧ (l.durable.wal.kind = .gcs → log.sealed = false)
  found : ∀ a ∈ l.acked, l.Found a

theorem Sound.kept {l : Ledger} (h : l.Sound) : l.Kept := by
  intro a ha
  obtain ⟨e, htime, hpayload, hheader, hwhere⟩ := h.found a ha
  refine ⟨e, htime, hpayload, ?_, hwhere⟩
  cases hp : e.payload with
  | none => simp [hp] at hheader
  | some p => rfl

/-- With a writer a mutation is appended to its log. -/
theorem logMutation_appends {l : Ledger} (h : l.Sound) {q : Nat} (hq : l.server.wal.activeWriter = some q)
    (now : Nat) (payload : WalPayload) :
    ∃ log m, l.durable.wal.logs.lookup q = some log ∧ m.activeSeq = l.server.wal.activeSeq ∧
      m.activeWriter = some q ∧
      l.server.wal.logMutation l.durable.wal now payload none = (.ok (), m, l.durable.wal.setLog q
        { log with entries := log.entries ++ [⟨l.server.wal.entrySeq, now, some payload⟩] }) := by
  obtain ⟨-, log, hlog, hopen⟩ := h.active q hq
  have hgo : ¬ (l.durable.wal.kind = .gcs ∧ log.sealed = true) := by
    rintro ⟨hkind, hseal⟩
    simp [hopen hkind] at hseal
  refine ⟨log, { l.server.wal with entrySeq := l.server.wal.entrySeq + 1 }, hlog, rfl, hq, ?_⟩
  simp only [WalManager.logMutation, hq, WalStore.appendEntry, hlog, if_neg hgo]

theorem Sound.mutate {cfg : ServerConfig} {l l' : Ledger} {now : Nat} {op : NfsOp} {fault : Option IoFault}
    (hl : l.Sound) (hsafe : l.Safe (.mutate now op fault)) (h : l.step cfg (.mutate now op fault) = some l') :
    l'.Sound := by
  obtain ⟨q, hq⟩ := Option.isSome_iff_exists.mp hsafe
  simp only [step] at h
  split at h
  · simp at h
  rename_i r hhandle
  obtain ⟨hwf, hlogged⟩ := Fs.handle_handles hl.wellFormed hhandle
  simp only [Option.some.injEq] at h
  subst h
  cases hlog : r.logged with
  | none =>
    have hno : (op.isMutation && r.answer.isOk) = false := by
      rw [Bool.and_eq_false_iff]
      by_contra hboth
      simp only [not_or, Bool.not_eq_false] at hboth
      obtain ⟨p, hp, -⟩ := hlogged hboth.1 hboth.2
      simp [hlog] at hp
    simp only [hno, Server.log]
    exact ⟨hwf, hl.bounded, hl.active, hl.found⟩
  | some payload =>
    obtain ⟨log, m, hlookup, hseq, hwriter, happend⟩ := logMutation_appends hl hq now payload
    simp only [Server.log, happend]
    have honly := WalStore.OnlyLog.setLog l.durable.wal q
      { log with entries := log.entries ++ [⟨l.server.wal.entrySeq, now, some payload⟩] }
    have hentries : (l.durable.wal.setLog q { log with entries :=
        log.entries ++ [⟨l.server.wal.entrySeq, now, some payload⟩] }).logEntries q =
        log.entries ++ [⟨l.server.wal.entrySeq, now, some payload⟩] := by
      simp [WalStore.logEntries, WalStore.setLog]
    have hmem {i : Nat} : i ∈ (l.durable.wal.setLog q { log with entries :=
        log.entries ++ [⟨l.server.wal.entrySeq, now, some payload⟩] }).logs ↔ i ∈ l.durable.wal.logs := by
      by_cases hi : i = q
      · subst hi
        exact iff_of_true (by simp [WalStore.setLog]) (AList.lookup_isSome.mp (by rw [hlookup]; rfl))
      · exact honly.mem hi
    have hpending {e : WalEntry} (he : l.durable.wal.Pending e) : (l.durable.wal.setLog q { log with entries :=
        log.entries ++ [⟨l.server.wal.entrySeq, now, some payload⟩] }).Pending e := by
      obtain ⟨i, hdone, hin⟩ := he
      refine ⟨i, hdone, ?_⟩
      by_cases hi : i = q
      · subst hi
        rw [hentries]
        simp only [WalStore.logEntries, hlookup] at hin
        exact List.mem_append_left _ hin
      · rw [WalStore.logEntries, honly.other i hi]
        exact hin
    refine ⟨hwf, ⟨fun i hi => ?_, fun i hi => hmem.mpr (hl.bounded.marked i hi)⟩, fun i hi => ?_, ?_⟩
    · rw [hseq]
      exact hl.bounded.below i (hmem.mp hi)
    · rw [hwriter, Option.some.injEq] at hi
      subst hi
      obtain ⟨hdone, log', hlog', hopen⟩ := hl.active q hq
      rw [hlookup, Option.some.injEq] at hlog'
      exact ⟨hdone, _, AList.lookup_insert _, fun hk => hlog' ▸ hopen hk⟩
    · have hold : ∀ a ∈ l.acked, ∃ e : WalEntry, e.timestampUnixNanos = a.1 ∧ e.payload = a.2 ∧
          e.payload.all WalPayload.isHeader = false ∧ ((l.durable.wal.setLog q { log with entries :=
            log.entries ++ [⟨l.server.wal.entrySeq, now, some payload⟩] }).Pending e ∨ e ∈ l.committed) := by
        intro a ha
        obtain ⟨e, htime, hpayload, hheader, hwhere⟩ := hl.found a ha
        exact ⟨e, htime, hpayload, hheader, hwhere.imp_left hpending⟩
      intro a ha
      simp only at ha
      split_ifs at ha with hack
      · rcases List.mem_cons.mp ha with rfl | ha
        · rw [Bool.and_eq_true] at hack
          obtain ⟨p, hp, hheader⟩ := hlogged hack.1 hack.2
          rw [hlog, Option.some.injEq] at hp
          subst hp
          refine ⟨⟨l.server.wal.entrySeq, now, some payload⟩, rfl, rfl, by simpa using hheader,
            .inl ⟨q, (hl.active q hq).1, by rw [hentries]; simp⟩⟩
        · exact hold a ha
      · exact hold a ha

theorem Sound.commit {cfg : ServerConfig} {l l' : Ledger} {now : Nat} {dirLen : Option Nat}
    {isShutdown : Bool} {faults : CommitFaults} (hl : l.Sound)
    (hsafe : l.Safe (.commit now dirLen isShutdown faults))
    (h : l.step cfg (.commit now dirLen isShutdown faults) = some l') : l'.Sound := by
  simp only [step] at h
  split at h
  · simp at h
  rename_i r s' d' hcommit
  simp only [Option.some.injEq] at h
  subst h
  obtain ⟨store, hsame, hvfs, hend⟩ := performCommit_cases hcommit
  have hbounded := hsame.bounded hl.bounded
  have hfound (hpend : ∀ e : WalEntry, e.payload.all WalPayload.isHeader = false →
      l.durable.wal.Pending e → d'.wal.Pending e ∨ e ∈ l.produced cfg now faults.recover d') :
      ∀ a ∈ l.acked, Found ⟨s', d', l.acked, l.produced cfg now faults.recover d' ++ l.committed⟩ a := by
    intro a ha
    obtain ⟨e, htime, hpayload, hheader, hwhere⟩ := hl.found a ha
    refine ⟨e, htime, hpayload, hheader, ?_⟩
    rcases hwhere with hpending | hcommitted
    · exact (hpend e hheader hpending).imp_right (List.mem_append_left _)
    · exact .inr (List.mem_append_right _ hcommitted)
  rcases hend with ⟨hwal, rfl⟩ | ⟨r, d₁, hrec, hrest⟩
  · refine ⟨by simpa only [hvfs] using hl.wellFormed, by simpa only [hwal] using hbounded, ?_,
      hfound fun e _ he => .inl (hsame.pending.mpr he)⟩
    simp [hwal]
  · obtain ⟨hkind, hentries, hmem, hdone, hmarks⟩ := recover_effect hrec
    simp only at hkind hentries hmem hdone hmarks
    rw [hsame.uncommittedSeqs] at hdone hmarks
    simp only [hsame.buildRecovery] at hmarks
    have hbounded₁ : d₁.wal.Bounded l.server.wal.activeSeq := by
      refine ⟨fun i hi => hbounded.below i ((hmem i).mp hi), fun i hi => (hmem i).mpr ?_⟩
      by_cases hseq : i ∈ uncommittedSeqs l.durable.wal faults.recover
      · have := List.mem_of_mem_filter hseq
        rw [WalStore.mem_listLogSequences] at this
        exact (hsame.mem i).mpr this
      · exact hbounded.marked i (hdone i hseq ▸ hi)
    -- an entry that is pending stays so unless its log was marked, and then the commit is somewhere
    have hpend (e : WalEntry) (hheader : e.payload.all WalPayload.isHeader = false)
        (he : l.durable.wal.Pending e) : d₁.wal.Pending e ∨ ∃ c,
          buildRecovery cfg.zlib l.server.engine l.durable.wal (l.server.recoverConfig cfg now) faults.recover
            (uncommittedSeqs l.durable.wal faults.recover) = some (.ok (some c)) ∧
          d₁.HasCommit l.server.engine.gcsStorage (uncommittedSeqs l.durable.wal faults.recover) c.packed ∧
          e ∈ l.replayed faults.recover := by
      obtain ⟨i, hi, hin⟩ := he
      have hstay (hd : d₁.wal.done i = none) : d₁.wal.Pending e :=
        ⟨i, hd, by rw [hentries, hsame.logEntries]; exact hin⟩
      by_cases hseq : i ∈ uncommittedSeqs l.durable.wal faults.recover
      · have hreplayed : e ∈ l.replayed faults.recover := List.mem_flatMap.mpr ⟨i, hseq, hin⟩
        have hall : store.done i = none := hsame.done ▸ hi
        rcases hmarks with hquiet | ⟨built, hbuild, hbuilt⟩
        · exact .inl (hstay (by rw [hquiet]; exact hall))
        · rcases hsafe with hheaders | ⟨htrace, hspares⟩
          · have := hheaders e hreplayed
            simp [hheader] at this
          · obtain ⟨c, rfl⟩ := buildRecovery_some hbuild htrace
            rcases hbuilt c rfl hspares with hquiet | hhas
            · exact .inl (hstay (by rw [hquiet]; exact hall))
            · exact .inr ⟨c, hbuild, hhas, hreplayed⟩
      · exact .inl (hstay (by rw [hdone i hseq]; exact hsame.done ▸ hi))
    have hproduced {e : WalEntry} {c : RecoveredPackResult}
        (hbuild : buildRecovery cfg.zlib l.server.engine l.durable.wal (l.server.recoverConfig cfg now)
          faults.recover (uncommittedSeqs l.durable.wal faults.recover) = some (.ok (some c)))
        (hhas : d'.HasCommit l.server.engine.gcsStorage (uncommittedSeqs l.durable.wal faults.recover) c.packed)
        (hin : e ∈ l.replayed faults.recover) : e ∈ l.produced cfg now faults.recover d' := by
      simp only [produced, hbuild, if_pos hhas, hin]
    rcases hrest with ⟨hwal, rfl⟩ | ⟨base, started, hstarted, hwal, rfl⟩
    · refine ⟨by simpa only [hvfs] using hl.wellFormed, by simpa only [hwal] using hbounded₁, by simp [hwal],
        hfound fun e hheader he => ?_⟩
      rcases hpend e hheader he with hpending | ⟨c, hbuild, hhas, hin⟩
      · exact .inl hpending
      · exact .inr (hproduced hbuild hhas hin)
    · obtain ⟨honly, hseq, hactive⟩ := startActiveWal_effect
        (WalManager.advanceSeq { l.server.wal with activeWriter := none }) d₁.wal now cfg.repoIdentifier base
        cfg.author [] faults.start
      rw [← hstarted] at honly hseq hactive
      have hnext : (WalManager.advanceSeq { l.server.wal with activeWriter := none }).activeSeq =
          l.server.wal.activeSeq + 1 := rfl
      rw [hnext] at honly hseq hactive
      have hfresh : l.server.wal.activeSeq + 1 ∉ d₁.wal.logs := fun hin => by
        have := hbounded₁.below _ hin
        omega
      refine ⟨by simpa only [hvfs] using hl.wellFormed, ⟨fun i hi => ?_, fun i hi => ?_⟩, fun q hq => ?_,
        hfound fun e hheader he => ?_⟩
      · rw [hwal, hseq]
        by_cases hi' : i = l.server.wal.activeSeq + 1
        · omega
        · have := hbounded₁.below i ((honly.mem hi').mp hi)
          omega
      · have hi₁ : d₁.wal.done i ≠ none := by rwa [← honly.done]
        have hin := hbounded₁.marked i hi₁
        have hne : i ≠ l.server.wal.activeSeq + 1 := fun heq => hfresh (heq ▸ hin)
        exact (honly.mem hne).mpr hin
      · rw [hwal] at hq
        rcases hactive q hq with hnone | ⟨rfl, log, hlog, hopen⟩
        · simp [WalManager.advanceSeq] at hnone
        · refine ⟨?_, log, hlog, fun _ => hopen⟩
          simp only [honly.done]
          by_contra hne
          exact hfresh (hbounded₁.marked _ hne)
      · rcases hpend e hheader he with hpending | ⟨c, hbuild, hhas, hin⟩
        · exact .inl (honly.pending hfresh hpending)
        · refine .inr (hproduced hbuild ?_ hin)
          simpa only [Durable.HasCommit, Stored, Published, honly.pack, honly.idx] using hhas

/-- A server that has just started, with nothing acknowledged yet. -/
def start (server : Server) (durable : Durable) : Ledger := ⟨server, durable, [], []⟩

/-- A server that started has a log of its own, after whatever its recovery left. -/
theorem startServer_ok {cfg : ServerConfig} {g : GitEngine} {rootOid baseCommitOid : Str} {d₀ d : Durable}
    {now : Nat} {dirLen : Option Nat} {faults : StartUpFaults} {s : Server}
    (h : startServer cfg g rootOid baseCommitOid d₀ now dirLen faults = some (.ok s, d)) :
    ∃ recoverCfg recovered d₁ base started,
      recoverAndReplayUncommitted cfg.zlib g d₀ recoverCfg faults.recover = some (.ok recovered, d₁) ∧
      started = (WalManager.new (d₁.wal.listLogSequences.getLast?.elim 0 (· + 1))).startActiveWal d₁.wal now
        cfg.repoIdentifier base cfg.author [] faults.start ∧
      s.fs = Fs.new s.rootOid ∧ s.wal = started.2.1 ∧ d = { d₁ with wal := started.2.2 } := by
  unfold startServer at h
  simp only at h
  split at h
  · simp at h
  · simp at h
  · rename_i recovered d₁ hrec
    split_ifs at h
    · simp at h
    · rw [Option.some.injEq, Prod.mk.injEq] at h
      obtain ⟨hstarted, hd⟩ := h
      unfold Except.map at hstarted
      split at hstarted
      · simp at hstarted
      · simp only [Except.ok.injEq] at hstarted
        exact ⟨_, recovered, d₁, _, _, hrec, rfl, by rw [← hstarted], by rw [← hstarted], hd.symm⟩

theorem start_sound {cfg : ServerConfig} {g : GitEngine} {rootOid baseCommitOid : Str} {d₀ d : Durable}
    {now : Nat} {dirLen : Option Nat} {faults : StartUpFaults} {s : Server}
    (h : startServer cfg g rootOid baseCommitOid d₀ now dirLen faults = some (.ok s, d))
    (hmarked : ∀ i, d₀.wal.done i ≠ none → i ∈ d₀.wal.logs) : (start s d).Sound := by
  obtain ⟨recoverCfg, recovered, d₁, base, started, hrec, hstarted, hfs, hwal, rfl⟩ := startServer_ok h
  obtain ⟨-, -, hmem, hdone, -⟩ := recover_effect hrec
  have hmarked₁ : ∀ i, d₁.wal.done i ≠ none → i ∈ d₁.wal.logs := by
    intro i hi
    rw [hmem i]
    by_cases hseq : i ∈ uncommittedSeqs d₀.wal faults.recover
    · exact (WalStore.mem_listLogSequences _ _).mp (List.mem_of_mem_filter hseq)
    · exact hmarked i (hdone i hseq ▸ hi)
  generalize hn : d₁.wal.listLogSequences.getLast?.elim 0 (· + 1) = n at hstarted
  have hbelow : ∀ i, i ∈ d₁.wal.logs → i < n := fun i hi => hn ▸ le_activeSeq d₁.wal hi
  obtain ⟨honly, hseq, hactive⟩ := startActiveWal_effect (WalManager.new n) d₁.wal now cfg.repoIdentifier
    base cfg.author [] faults.start
  rw [← hstarted] at honly hseq hactive
  have hnew : (WalManager.new n).activeSeq = n := rfl
  rw [hnew] at honly hseq hactive
  refine ⟨?_, ⟨fun i hi => ?_, fun i hi => ?_⟩, fun q hq => ?_, by simp [start]⟩
  · simp only [start, hfs]
    exact VfsManager.WellFormed.new _
  · simp only [start, hwal, hseq] at hi ⊢
    by_cases hi' : i = n
    · omega
    · exact (hbelow i ((honly.mem hi').mp hi)).le
  · simp only [start, honly.done] at hi
    have hin := hmarked₁ i hi
    exact (honly.mem (hbelow i hin).ne).mpr hin
  · simp only [start, hwal] at hq
    rcases hactive q hq with hnone | ⟨rfl, log, hlog, hopen⟩
    · simp [WalManager.new] at hnone
    · refine ⟨?_, log, hlog, fun _ => hopen⟩
      simp only [start, honly.done]
      by_contra hne
      exact (hbelow q (hmarked₁ q hne)).ne rfl

def testConfig : ServerConfig := ⟨zlibStored, "A <a@b>".toList, [], none⟩

/-- A server on an empty tree and a local WAL that holds nothing yet. -/
def testStart : Option (Except Error Server × Durable) :=
  startServer testConfig emptyEngine (oidOf '0') (oidOf 'a') ⟨WalStore.empty .localFs, ∅, []⟩ 0 none .none

def testRun (as : List LedgerAction) : Option Ledger :=
  match testStart with
  | some (.ok s, d) => Run.run (step testConfig) (start s d) as
  | _ => none

theorem testRun_start {as : List LedgerAction} {l : Ledger} (h : testRun as = some l) :
    ∃ s d, testStart = some (.ok s, d) ∧ Run.run (step testConfig) (start s d) as = some l := by
  unfold testRun at h
  split at h
  · rename_i s d hstart
    exact ⟨s, d, hstart, h⟩
  · simp at h

def createF : LedgerAction := .mutate 1 (.create rootInode (asBytes ['f'])) none

/-- The part of `Safe` that a run can be checked for. -/
def safe (l : Ledger) : LedgerAction → Bool
  | .mutate _ _ _ => l.server.wal.activeWriter.isSome
  | .commit _ _ _ faults =>
    (l.replayed faults.recover).any WalEntry.leavesTrace && faults.recover.writes.isNone

theorem safe_of (l : Ledger) (a : LedgerAction) (h : l.safe a = true) : l.Safe a := by
  cases a with
  | mutate now op fault => exact h
  | commit now dirLen isShutdown faults =>
    simp only [safe, Bool.and_eq_true, List.any_eq_true, Option.isNone_iff_eq_none] at h
    exact .inr ⟨h.1, .inr fun p hp => by simp [h.2] at hp⟩

/-- An acknowledged mutation that is in no log and in no commit. -/
def lost (l : Ledger) : Bool :=
  l.acked.any fun a =>
    (l.durable.wal.listLogSequences.flatMap l.durable.wal.logEntries ++ l.committed).all fun e =>
      e.payload ≠ a.2

theorem not_kept_of_lost {l : Ledger} (h : l.lost = true) : ¬ l.Kept := by
  intro hkept
  obtain ⟨a, ha, hnone⟩ := List.any_eq_true.mp h
  obtain ⟨e, -, hpayload, -, hwhere⟩ := hkept a ha
  have hmem : e ∈ l.durable.wal.listLogSequences.flatMap l.durable.wal.logEntries ++ l.committed := by
    rcases hwhere with ⟨seq, -, hin⟩ | hin
    · refine List.mem_append_left _ (List.mem_flatMap.mpr ⟨seq, ?_, hin⟩)
      exact (WalStore.mem_listLogSequences _ _).mpr (WalStore.mem_of_logEntries hin)
    · exact List.mem_append_right _ hin
  have := List.all_eq_true.mp hnone e hmem
  simp [hpayload] at this

end Ledger

end GitNfs
