import GitNfs.Fleet.Proc
import GitNfs.Lib.Run
import GitNfs.Wal.Effects

/-! # Two servers on one WAL

Server `b` locks out server `a`. A request is one step of its server, and so is each storage operation.
-/

namespace GitNfs

/-! ## Both servers -/

inductive Who where
  | a
  | b
  deriving DecidableEq, Repr

structure Fleet where
  durable : Durable
  procs : Who → Option Proc
  /-- Who opened a log last. -/
  openedBy : Nat → Option Who

inductive FleetAction where
  | start (i : Who) (engine : GitEngine) (rootOid baseCommitOid : Str) (now : Nat)
  | mutate (i : Who) (now : Nat) (op : NfsOp) (ioFault : Option IoFault) (appendFault : Option AppendFault)
  | commit (i : Who) (now : Nat) (isShutdown finalizeFails : Bool)
  | advance (i : Who) (dirLen : Option Nat) (fault : Option Fault)
  | crash (i : Who)

def FleetAction.who : FleetAction → Who
  | .start i _ _ _ _ => i
  | .mutate i _ _ _ _ => i
  | .commit i _ _ _ => i
  | .advance i _ _ => i
  | .crash i => i

namespace Fleet

def initial (d : Durable) : Fleet := ⟨d, fun _ => none, fun _ => none⟩

def setProc (f : Fleet) (i : Who) (p : Proc) (d : Durable) : Fleet :=
  { f with durable := d, procs := Function.update f.procs i (some p) }

/-- What a server that runs does. -/
def stepProc (cfg : ServerConfig) (f : Fleet) (p : Proc) : FleetAction → Option Fleet
  | .start _ _ _ _ _ => none
  | .mutate i now op ioFault appendFault =>
    match p.phase with
    | .serving =>
      (p.server.mutate f.durable now op ioFault appendFault).map fun r =>
        f.setProc i { p with server := r.2.1 } r.2.2
    | _ => none
  | .commit i now isShutdown finalizeFails =>
    match p.phase with
    | .serving =>
      match p.server.wal.finalizeActiveWal f.durable.wal finalizeFails with
      | (.error _, wal, store) =>
        some (f.setProc i { p with server := { p.server with wal } } { f.durable with wal := store })
      | (.ok (), wal, store) =>
        some (f.setProc i ⟨{ p.server with wal }, .commit isShutdown, now, .list⟩
          { f.durable with wal := store })
    | _ => none
  | .advance i dirLen fault =>
    (p.advance cfg f.durable dirLen fault).map fun r =>
      let f' := f.setProc i r.1 r.2
      match p.phase, r.1.phase with
      | .openLog, .header =>
        { f' with openedBy := Function.update f.openedBy p.server.wal.activeSeq (some i) }
      | _, _ => f'
  | .crash i => some (f.setProc i (p.goto .down) f.durable)

def step (cfg : ServerConfig) (f : Fleet) (act : FleetAction) : Option Fleet :=
  match f.procs act.who with
  | some p => f.stepProc cfg p act
  | none =>
    match act with
    | .start i engine rootOid baseCommitOid now =>
      let server : Server := ⟨Fs.new rootOid, engine, WalManager.new 0, rootOid, baseCommitOid⟩
      some (f.setProc i ⟨server, .startUp, now, .list⟩ f.durable)
    | _ => none

/-! ## A log that is locked -/

/-- The bucket takes no more data for a log. -/
def SealedLog (s : WalStore) (q : Nat) : Prop :=
  s.kind = .gcs ∧ ∃ log, s.logs.lookup q = some log ∧ log.sealed = true

theorem sealLog_sealed {s : WalStore} {q : Nat} (h : SealedLog s q) (i : Nat) : SealedLog (s.sealLog i) q := by
  obtain ⟨hkind, log, hlog, hseal⟩ := h
  unfold WalStore.sealLog
  split
  · rename_i log' hlog'
    refine ⟨hkind, ?_⟩
    by_cases hi : q = i
    · subst hi
      exact ⟨_, AList.lookup_insert _, rfl⟩
    · exact ⟨log, by simp [WalStore.setLog, AList.lookup_insert_ne hi, hlog], hseal⟩
  · exact ⟨hkind, log, hlog, hseal⟩

theorem sealedLog_only {s t : WalStore} {i q : Nat} (honly : WalStore.OnlyLog s t i) (hi : q ≠ i)
    (h : SealedLog s q) : SealedLog t q := by
  obtain ⟨hkind, log, hlog, hseal⟩ := h
  exact ⟨honly.kind.trans hkind, log, by rw [honly.other q hi, hlog], hseal⟩

/-- Nothing is appended to a log that is locked. -/
theorem appendEntry_sealed {s : WalStore} {q : Nat} (h : SealedLog s q) (entry : WalEntry)
    (fault : Option AppendFault) : s.appendEntry q entry fault = (.error (.sealed q), s) := by
  obtain ⟨hkind, log, hlog, hseal⟩ := h
  simp only [WalStore.appendEntry, hlog, hkind, hseal, and_self, if_true]

theorem appendEntry_keeps {s s' : WalStore} {i q : Nat} {entry : WalEntry} {fault : Option AppendFault}
    {res : Except Error Unit} (heq : s.appendEntry i entry fault = (res, s')) (h : SealedLog s q) :
    SealedLog s' q := by
  by_cases hi : q = i
  · subst hi
    rw [appendEntry_sealed h] at heq
    simp only [Prod.mk.injEq] at heq
    exact heq.2 ▸ h
  · exact sealedLog_only (appendEntry_effect heq).1 hi h

theorem finalizeWriter_keeps {s : WalStore} {q : Nat} (h : SealedLog s q) (i : Nat) (fails : Bool) :
    SealedLog (s.finalizeWriter i fails).2 q := by
  unfold WalStore.finalizeWriter
  split
  · split_ifs <;> exact h
  · split
    · exact h
    · split_ifs
      · exact h
      · exact h
      · exact sealLog_sealed h i

/-- A server whose log was locked cannot finalize it. -/
theorem finalizeWriter_sealed {s : WalStore} {q : Nat} (h : SealedLog s q) (fails : Bool) :
    s.finalizeWriter q fails = (.error (.sealed q), s) := by
  obtain ⟨hkind, log, hlog, hseal⟩ := h
  simp only [WalStore.finalizeWriter, hkind, hlog, hseal, if_true]

theorem write_keeps {d : Durable} {q : Nat} (h : SealedLog d.wal q) (w : DurableWrite) :
    SealedLog (d.write w).wal q := by
  cases w <;> exact h

/-! ## The other server -/

/-- A server that opens no log up to `q` any more. -/
def Beyond (q : Nat) (p : Proc) : Prop :=
  match p.phase with
  | .down => True
  | .openLog => q < p.server.wal.activeSeq
  | .header => q ≤ p.server.wal.activeSeq
  | .serving => q ≤ p.server.wal.activeSeq
  | .reset _ => q ≤ p.server.wal.activeSeq
  | _ => p.purpose = .startUp ∨ q ≤ p.server.wal.activeSeq

theorem beyond_busy {q : Nat} {p : Proc} (h : p.phase.busy = true) :
    Beyond q p ↔ p.purpose = .startUp ∨ q ≤ p.server.wal.activeSeq := by
  unfold Beyond
  cases hphase : p.phase <;> simp_all [Proc.Phase.busy]

theorem beyond_fail {q : Nat} {p : Proc} (h : p.purpose = .startUp ∨ q ≤ p.server.wal.activeSeq) :
    Beyond q p.fail := by
  unfold Proc.fail
  split
  · trivial
  · rename_i hp
    simpa [Beyond, Proc.goto, hp] using h

theorem beyond_nextLog {q : Nat} {p : Proc} (h : q ≤ p.server.wal.activeSeq) : Beyond q p.nextLog := by
  unfold Proc.nextLog
  split
  · trivial
  · exact Nat.lt_succ_of_le h

theorem beyond_recovered {q : Nat} {p : Proc} {d : Durable} (dirLen : Option Nat)
    (built : Option RecoveredPackResult) (hq : SealedLog d.wal q)
    (h : p.purpose = .startUp ∨ q ≤ p.server.wal.activeSeq) : Beyond q (p.recovered d dirLen built) := by
  obtain ⟨-, log, hlog, -⟩ := hq
  have hmem : q ∈ d.wal.logs := AList.lookup_isSome.mp (by rw [hlog]; rfl)
  unfold Proc.recovered
  split
  · exact le_activeSeq d.wal hmem
  · rename_i hp
    have hle : q ≤ p.server.wal.activeSeq := by simpa [hp] using h
    split
    · exact beyond_nextLog hle
    · exact hle

theorem touches_keeps {d d' : Durable} {q : Nat} (h : Proc.Touches d d') (hq : SealedLog d.wal q) :
    SealedLog d'.wal q := by
  cases h with
  | nothing => exact hq
  | sealed seq => exact sealLog_sealed hq seq
  | write w => exact write_keeps hq w

/-- Whatever the other server does, the log stays locked. -/
theorem advance_keeps {cfg : ServerConfig} {p p' : Proc} {d d' : Durable} {dirLen : Option Nat}
    {fault : Option Fault} {q : Nat} (h : p.advance cfg d dirLen fault = some (p', d'))
    (hq : SealedLog d.wal q) (hp : Beyond q p) : SealedLog d'.wal q ∧ Beyond q p' := by
  by_cases hbusy : p.phase.busy = true
  · have hwhere := (beyond_busy hbusy).mp hp
    cases Proc.advance_moves h hbusy with
    | goto phase hphase hd => exact ⟨touches_keeps hd hq, (beyond_busy hphase).mpr hwhere⟩
    | fail hd => exact ⟨touches_keeps hd hq, beyond_fail hwhere⟩
    | recovered dirLen built => exact ⟨hq, beyond_recovered dirLen built hq hwhere⟩
  · unfold Proc.advance at h
    cases hphase : p.phase <;> simp only [hphase, Proc.Phase.busy, not_true_eq_false] at hbusy
    case serving => simp [hphase] at h
    case down => simp [hphase] at h
    case reset =>
      have hle : q ≤ p.server.wal.activeSeq := by simpa [Beyond, hphase] using hp
      simp only [hphase] at h
      split_ifs at h <;> simp only [Option.some.injEq, Prod.mk.injEq] at h <;> obtain ⟨rfl, rfl⟩ := h
      · exact ⟨hq, beyond_fail (.inr hle)⟩
      · exact ⟨hq, beyond_nextLog hle⟩
    case openLog =>
      have hlt : q < p.server.wal.activeSeq := by simpa [Beyond, hphase] using hp
      simp only [hphase] at h
      split_ifs at h
      · simp only [Option.some.injEq, Prod.mk.injEq] at h
        obtain ⟨rfl, rfl⟩ := h
        exact ⟨hq, beyond_fail (.inr hlt.le)⟩
      · obtain ⟨honly, -⟩ := openWriter_effect d.wal p.server.wal.activeSeq
        split at h
        · rename_i hopen
          rw [hopen] at honly
          simp only [Option.some.injEq, Prod.mk.injEq] at h
          obtain ⟨rfl, rfl⟩ := h
          exact ⟨sealedLog_only honly hlt.ne hq, beyond_fail (.inr hlt.le)⟩
        · rename_i hopen
          rw [hopen] at honly
          simp only [Option.some.injEq, Prod.mk.injEq] at h
          obtain ⟨rfl, rfl⟩ := h
          exact ⟨sealedLog_only honly hlt.ne hq, hlt.le⟩
    case header =>
      have hle : q ≤ p.server.wal.activeSeq := by simpa [Beyond, hphase] using hp
      simp only [hphase] at h
      split at h
      · rename_i happend
        simp only [Option.some.injEq, Prod.mk.injEq] at h
        obtain ⟨rfl, rfl⟩ := h
        exact ⟨appendEntry_keeps happend hq, beyond_fail (.inr hle)⟩
      · rename_i happend
        simp only [Option.some.injEq, Prod.mk.injEq] at h
        obtain ⟨rfl, rfl⟩ := h
        exact ⟨appendEntry_keeps happend hq, hle⟩

/-! ## The zombie -/

/-- What a locked out server may no longer do to a log of its own and to those of the other server. -/
structure Harmless (q : Nat) (f f' : Fleet) : Prop where
  notAppended : f'.durable.wal.logEntries q = f.durable.wal.logEntries q
  notFinalized : ∀ i, f.openedBy i = some .b →
    (f'.durable.wal.logs.lookup i).map LogFile.sealed = (f.durable.wal.logs.lookup i).map LogFile.sealed
  notMarked : ∀ i, f.openedBy i = some .b → f'.durable.wal.done i = f.durable.wal.done i
  notPublished : f'.durable.repo = f.durable.repo

/-- The lockout of `b` has come back, and log `q` was on its list. -/
def LockoutReturned (f : Fleet) (q : Nat) : Prop :=
  ∃ p all, f.procs .b = some p ∧ p.phase = .lockout all [] ∧ q ∈ all

/-- The log that `a` writes to. -/
def ActiveLog (f : Fleet) (q : Nat) : Prop :=
  ∃ p, f.procs .a = some p ∧ p.server.wal.activeWriter = some q

/-- The lockout went through, `a` was not inside a commit, and `b` opens no log up to this one. -/
structure LockedOut (f : Fleet) (q : Nat) : Prop where
  returned : f.LockoutReturned q
  sealed : SealedLog f.durable.wal q
  serving : ∃ p, f.procs .a = some p ∧ p.phase = .serving ∧ p.server.wal.activeWriter = some q
  beyond : ∃ p, f.procs .b = some p ∧ (p.purpose = .startUp ∨ q ≤ p.server.wal.activeSeq)

/-- The zombie tries to commit only as long as it has a writer. -/
def Safe (f : Fleet) : FleetAction → Prop
  | .commit .a _ _ _ => ∀ p, f.procs .a = some p → p.server.wal.activeWriter.isSome
  | _ => True

structure Fenced (q : Nat) (f : Fleet) : Prop where
  sealed : SealedLog f.durable.wal q
  zombie : ∃ p, f.procs .a = some p ∧ (p.phase = .down ∨
    p.phase = .serving ∧ (p.server.wal.activeWriter = some q ∨ p.server.wal.activeWriter = none))
  other : ∃ p, f.procs .b = some p ∧ Beyond q p

theorem LockedOut.fenced {f : Fleet} {q : Nat} (h : f.LockedOut q) : Fenced q f := by
  obtain ⟨p, all, hp, hphase, -⟩ := h.returned
  obtain ⟨p', hp', hwhere⟩ := h.beyond
  rw [hp, Option.some.injEq] at hp'
  subst hp'
  obtain ⟨pa, hpa, hserving, hwriter⟩ := h.serving
  exact ⟨h.sealed, ⟨pa, hpa, .inr ⟨hserving, .inl hwriter⟩⟩, p, hp,
    (beyond_busy (by rw [hphase]; rfl)).mpr hwhere⟩

/-- A request to a server whose log is locked, or that has no log, stores nothing. -/
theorem mutate_sealed {s s' : Server} {d d' : Durable} {now : Nat} {op : NfsOp} {ioFault : Option IoFault}
    {appendFault : Option AppendFault} {res : Except NfsStat Unit} {q : Nat}
    (h : s.mutate d now op ioFault appendFault = some (res, s', d')) (hq : SealedLog d.wal q)
    (hwriter : s.wal.activeWriter = some q ∨ s.wal.activeWriter = none) :
    d' = d ∧ s'.wal.activeWriter = s.wal.activeWriter := by
  unfold Server.mutate at h
  split at h
  · simp at h
  · rename_i handled _
    simp only [Option.some.injEq, Prod.mk.injEq] at h
    obtain ⟨-, hlog⟩ := h
    unfold Server.log at hlog
    split at hlog
    · simp only [Prod.mk.injEq] at hlog
      exact ⟨hlog.2.symm, by rw [← hlog.1]⟩
    · rcases hwriter with hw | hw
      · simp only [WalManager.logMutation, hw, appendEntry_sealed hq, Prod.mk.injEq] at hlog
        exact ⟨hlog.2.symm, by rw [← hlog.1]; exact hw.symm⟩
      · simp only [WalManager.logMutation, hw, Prod.mk.injEq] at hlog
        exact ⟨hlog.2.symm, by rw [← hlog.1]; exact hw.symm⟩

theorem mutate_keeps {s s' : Server} {d d' : Durable} {now : Nat} {op : NfsOp} {ioFault : Option IoFault}
    {appendFault : Option AppendFault} {res : Except NfsStat Unit} {q : Nat}
    (h : s.mutate d now op ioFault appendFault = some (res, s', d')) (hq : SealedLog d.wal q) :
    SealedLog d'.wal q ∧ s'.wal.activeSeq = s.wal.activeSeq := by
  unfold Server.mutate at h
  split at h
  · simp at h
  · simp only [Option.some.injEq, Prod.mk.injEq] at h
    obtain ⟨-, hlog⟩ := h
    unfold Server.log at hlog
    split at hlog
    · simp only [Prod.mk.injEq] at hlog
      exact ⟨hlog.2 ▸ hq, by rw [← hlog.1]⟩
    · rename_i payload
      unfold WalManager.logMutation at hlog
      simp only at hlog
      split at hlog
      · simp only [Prod.mk.injEq] at hlog
        exact ⟨hlog.2 ▸ hq, by rw [← hlog.1]⟩
      · simp only [Prod.mk.injEq] at hlog
        exact ⟨hlog.2 ▸ appendEntry_keeps rfl hq, by rw [← hlog.1]⟩

theorem finalizeActiveWal_keeps (m : WalManager) {s : WalStore} {q : Nat} (hq : SealedLog s q)
    (fails : Bool) : SealedLog (m.finalizeActiveWal s fails).2.2 q := by
  unfold WalManager.finalizeActiveWal
  split
  · exact hq
  · exact finalizeWriter_keeps hq _ _

/-- A step of the zombie stores nothing. -/
theorem zombie_step {cfg : ServerConfig} {f f' : Fleet} {act : FleetAction} {q : Nat} (h : Fenced q f)
    (hsafe : f.Safe act) (hwho : act.who = .a) (hstep : f.step cfg act = some f') :
    f'.durable = f.durable ∧ Fenced q f' := by
  obtain ⟨p, hp, hphase⟩ := h.zombie
  obtain ⟨pb, hpb, hbeyond⟩ := h.other
  have hset (p' : Proc) (hp' : p'.phase = .down ∨ p'.phase = .serving ∧
      (p'.server.wal.activeWriter = some q ∨ p'.server.wal.activeWriter = none)) :
      (f.setProc .a p' f.durable).durable = f.durable ∧ Fenced q (f.setProc .a p' f.durable) :=
    ⟨rfl, h.sealed, ⟨p', by simp [setProc], hp'⟩, pb, by simp [setProc, hpb], hbeyond⟩
  simp only [step, hwho, hp] at hstep
  cases act with
  | start i engine rootOid baseCommitOid now => simp [stepProc] at hstep
  | mutate i now op ioFault appendFault =>
    simp only [FleetAction.who] at hwho
    subst hwho
    simp only [stepProc] at hstep
    split at hstep
    · rename_i hserving
      obtain ⟨⟨res, s', d'⟩, hmutate, rfl⟩ := Option.map_eq_some_iff.mp hstep
      have hwriter := (hphase.resolve_left (by simp [hserving])).2
      obtain ⟨rfl, hw⟩ := mutate_sealed hmutate h.sealed hwriter
      exact hset _ (.inr ⟨hserving, by rw [hw]; exact hwriter⟩)
    · simp at hstep
  | commit i now isShutdown finalizeFails =>
    simp only [FleetAction.who] at hwho
    subst hwho
    simp only [stepProc] at hstep
    split at hstep
    · rename_i hserving
      have hw : p.server.wal.activeWriter = some q := by
        rcases (hphase.resolve_left (by simp [hserving])).2 with hw | hw
        · exact hw
        · simpa [hw] using hsafe p hp
      simp only [WalManager.finalizeActiveWal, hw, finalizeWriter_sealed h.sealed, Option.some.injEq] at hstep
      subst hstep
      exact hset _ (.inr ⟨hserving, .inr rfl⟩)
    · simp at hstep
  | advance i dirLen fault =>
    obtain ⟨r, hadvance, -⟩ := Option.map_eq_some_iff.mp hstep
    rcases hphase with hphase | ⟨hphase, -⟩ <;> simp [Proc.advance, hphase] at hadvance
  | crash i =>
    simp only [FleetAction.who] at hwho
    subst hwho
    simp only [stepProc, Option.some.injEq] at hstep
    subst hstep
    exact hset _ (.inl rfl)

/-- A step of the other server leaves the zombie fenced. -/
theorem other_step {cfg : ServerConfig} {f f' : Fleet} {act : FleetAction} {q : Nat} (h : Fenced q f)
    (hwho : act.who = .b) (hstep : f.step cfg act = some f') : Fenced q f' := by
  obtain ⟨pa, hpa, hzombie⟩ := h.zombie
  obtain ⟨p, hp, hbeyond⟩ := h.other
  have hset (p' : Proc) (d' : Durable) (hd : SealedLog d'.wal q) (hp' : Beyond q p') :
      Fenced q (f.setProc .b p' d') :=
    ⟨hd, ⟨pa, by simp [setProc, hpa], hzombie⟩, p', by simp [setProc], hp'⟩
  simp only [step, hwho, hp] at hstep
  cases act with
  | start i engine rootOid baseCommitOid now => simp [stepProc] at hstep
  | mutate i now op ioFault appendFault =>
    simp only [FleetAction.who] at hwho
    subst hwho
    simp only [stepProc] at hstep
    split at hstep
    · rename_i hserving
      obtain ⟨⟨res, s', d'⟩, hmutate, rfl⟩ := Option.map_eq_some_iff.mp hstep
      obtain ⟨hd, hseq⟩ := mutate_keeps hmutate h.sealed
      refine hset _ _ hd ?_
      simpa [Beyond, hserving, hseq] using hbeyond
    · simp at hstep
  | commit i now isShutdown finalizeFails =>
    simp only [FleetAction.who] at hwho
    subst hwho
    simp only [stepProc] at hstep
    split at hstep
    · rename_i hserving
      have hle : q ≤ p.server.wal.activeSeq := by simpa [Beyond, hserving] using hbeyond
      have hd := finalizeActiveWal_keeps p.server.wal h.sealed finalizeFails
      obtain ⟨-, hm⟩ := finalizeActiveWal_effect p.server.wal f.durable.wal finalizeFails
      split at hstep
      · rename_i hfin
        rw [hfin] at hd hm
        simp only [Option.some.injEq] at hstep
        subst hstep
        simp only at hm
        refine hset _ _ hd ?_
        simpa [Beyond, hserving, hm] using hle
      · rename_i hfin
        rw [hfin] at hd hm
        simp only [Option.some.injEq] at hstep
        subst hstep
        simp only at hm
        refine hset _ _ hd (.inr ?_)
        simpa [hm] using hle
    · simp at hstep
  | advance i dirLen fault =>
    simp only [FleetAction.who] at hwho
    subst hwho
    obtain ⟨⟨p', d'⟩, hadvance, rfl⟩ := Option.map_eq_some_iff.mp hstep
    obtain ⟨hd, hp'⟩ := advance_keeps hadvance h.sealed hbeyond
    have hfenced := hset p' d' hd hp'
    simp only
    split
    · exact ⟨hfenced.sealed, hfenced.zombie, hfenced.other⟩
    · exact hfenced
  | crash i =>
    simp only [FleetAction.who] at hwho
    subst hwho
    simp only [stepProc, Option.some.injEq] at hstep
    subst hstep
    exact hset _ _ h.sealed trivial

/-- Once a lockout in the bucket went through and the zombie, not being inside a commit, does not begin one
without a writer, none of its later steps does any harm. -/
theorem zombie_harmless (cfg : ServerConfig) (f f' f'' : Fleet) (q : Nat) (as : List FleetAction)
    (act : FleetAction) (hlocked : f.LockedOut q) (hsafe : Run.Meets (step cfg) Safe f (as ++ [act]))
    (hrun : Run.run (step cfg) f as = some f') (hact : act.who = .a) (hstep : f'.step cfg act = some f'') :
    Harmless q f' f'' := by
  obtain ⟨hbefore, hlast⟩ := Run.meets_append hrun hsafe
  have hfenced : Fenced q f' := by
    refine Run.invariant (fun f₁ a f₂ h hok hs => ?_) hbefore hrun hlocked.fenced
    cases hwho : a.who with
    | a => exact (zombie_step h hok hwho hs).2
    | b => exact other_step h hwho hs
  obtain ⟨hd, -⟩ := zombie_step hfenced hlast.1 hact hstep
  refine ⟨?_, fun i _ => ?_, fun i _ => ?_, ?_⟩ <;> rw [hd]

/-! ### A zombie with one attempt, and one with two -/

def testConfig : ServerConfig := ⟨zlibStored, "A <a@b>".toList, [], none⟩

def startOf (i : Who) : FleetAction := .start i emptyEngine (oidOf '0') (oidOf 'a') 0

/-- `a` starts on an empty bucket, then `b` starts and its lockout comes back. -/
def lockoutRun : List FleetAction :=
  startOf .a :: List.replicate 6 (.advance .a none none) ++
    startOf .b :: List.replicate 2 (.advance .b none none)

def lockoutFleet : Option Fleet :=
  Run.run (step testConfig) (initial ⟨WalStore.empty .gcs, ∅, []⟩) lockoutRun

/-- The part of `LockedOut` that can be computed. -/
def lockedOut (f : Fleet) (q : Nat) : Bool :=
  f.durable.wal.kind = .gcs && (f.durable.wal.logs.lookup q).any LogFile.sealed &&
  (f.procs .a).any (fun p => (match p.phase with | .serving => true | _ => false) &&
    p.server.wal.activeWriter = some q) &&
  (f.procs .b).any fun p => p.purpose = .startUp &&
    match p.phase with | .lockout all [] => all.contains q | _ => false

theorem lockedOut_of {f : Fleet} {q : Nat} (h : f.lockedOut q = true) : f.LockedOut q := by
  simp only [lockedOut, Bool.and_eq_true, decide_eq_true_eq, Option.any_eq_true] at h
  obtain ⟨⟨⟨hkind, log, hlog, hseal⟩, pa, hpa, hserving, hwriter⟩, pb, hpb, hpurpose, hphase⟩ := h
  have hpa' : pa.phase = .serving := by
    split at hserving
    · assumption
    · simp at hserving
  have hpb' : ∃ all, pb.phase = .lockout all [] ∧ q ∈ all := by
    split at hphase
    · rename_i all h
      exact ⟨all, h, by simpa using hphase⟩
    · simp at hphase
  obtain ⟨all, hall, hq⟩ := hpb'
  exact ⟨⟨pb, all, hpb, hall, hq⟩, ⟨hkind, log, hlog, hseal⟩, ⟨pa, hpa, hpa', hwriter⟩, pb, hpb,
    .inl hpurpose⟩

def zombieCreate : FleetAction := .mutate .a 1 (.create rootInode (asBytes ['f'])) none none
def zombieCommit : FleetAction := .commit .a 40 false false

/-- After one attempt to commit a request of the zombie goes nowhere. -/
theorem zombie_harmless_once :
    ∃ f f' f'', f.LockedOut 0 ∧ Run.run (step testConfig) f [zombieCommit] = some f' ∧
      f'.step testConfig zombieCreate = some f'' ∧ Harmless 0 f' f'' := by
  have hcheck : (lockoutFleet.any fun f => f.lockedOut 0 &&
      ((f.procs .a).all fun p => p.server.wal.activeWriter.isSome) &&
      (Run.run (step testConfig) f [zombieCommit]).any fun f' =>
        (f'.step testConfig zombieCreate).isSome) = true := by decide +kernel
  obtain ⟨f, -, hf⟩ := Option.any_eq_true _ _ |>.mp hcheck
  simp only [Bool.and_eq_true, Option.any_eq_true, Option.all_eq_true] at hf
  obtain ⟨⟨hlocked, hwriter⟩, f', hrun, hsome⟩ := hf
  obtain ⟨f'', hstep⟩ := Option.isSome_iff_exists.mp hsome
  refine ⟨f, f', f'', lockedOut_of hlocked, hrun, hstep, ?_⟩
  exact zombie_harmless testConfig f f' f'' 0 [zombieCommit] zombieCreate (lockedOut_of hlocked)
    ⟨hwriter, fun _ _ => ⟨trivial, fun _ _ => trivial⟩⟩ hrun rfl hstep

/-- `b` finishes its start, then `a` tries to commit twice and locks out its successor. -/
def zombieRun : List FleetAction :=
  List.replicate 9 (.advance .b none none) ++
    [zombieCommit, zombieCommit, .advance .a none none, .advance .a none none]

theorem zombie_harmful :
    ¬ ∀ (cfg : ServerConfig) (d : Durable) (f f' f'' : Fleet) (q : Nat) (as₀ as : List FleetAction)
      (act : FleetAction), Run.run (step cfg) (initial d) as₀ = some f → f.LockoutReturned q →
      f.ActiveLog q → Run.run (step cfg) f as = some f' → act.who = .a →
      f'.step cfg act = some f'' → Harmless q f' f'' := by
  intro h
  have hcheck : (lockoutFleet.any fun f => f.lockedOut 0 &&
      (Run.run (step testConfig) f zombieRun).any fun f' => f'.openedBy 1 = some .b &&
        (f'.step testConfig (.advance .a none none)).any fun f'' =>
          ((f''.durable.wal.logs.lookup 1).map LogFile.sealed ≠
            (f'.durable.wal.logs.lookup 1).map LogFile.sealed : Bool)) = true := by decide +kernel
  obtain ⟨f, hf₀, hf⟩ := Option.any_eq_true _ _ |>.mp hcheck
  simp only [Bool.and_eq_true, Option.any_eq_true, decide_eq_true_eq] at hf
  obtain ⟨hlocked, f', hrun, hopened, f'', hstep, hne⟩ := hf
  obtain ⟨pa, hpa, -, hwriter⟩ := (lockedOut_of hlocked).serving
  exact hne ((h testConfig _ f f' f'' 0 lockoutRun zombieRun _ hf₀ (lockedOut_of hlocked).returned
    ⟨pa, hpa, hwriter⟩ hrun rfl hstep).notFinalized 1 hopened)

end Fleet

end GitNfs
