import GitNfs.Server
import Mathlib.Logic.Relation

/-! # One server, operation by operation

A server that starts or commits does one storage operation at a time, so that other servers may do anything
in between.
-/

namespace GitNfs

inductive Purpose where
  | startUp
  | commit (isShutdown : Bool)
  deriving DecidableEq, Repr

/-- How far a server is. From `list` to `mark` it is inside `recover_and_replay_uncommitted`. -/
inductive Proc.Phase where
  | serving
  | down
  | list
  | lockout (all left : List Nat)
  | check (left found : List Nat)
  | replay (seqs left : List Nat) (info : CommitInfo) (r : Replay)
  | publish (seqs : List Nat) (res : RecoveredPackResult) (left : List (Str × Bytes))
  | serverInfo (seqs : List Nat) (res : RecoveredPackResult) (left : List (Str × Bytes))
  | mark (left : List DurableWrite) (built : Option RecoveredPackResult)
  | reset (res : RecoveredPackResult)
  | openLog
  | header

structure Proc where
  server : Server
  purpose : Purpose
  now : Nat
  phase : Proc.Phase

/-- A storage operation that fails, and what it leaves of a write. -/
structure Fault where
  torn : Option Nat
  deriving DecidableEq, Repr

namespace Proc

def goto (p : Proc) (phase : Phase) : Proc := { p with phase }

/-- A start that fails ends the process; a commit that fails is tried again on a later tick. -/
def fail (p : Proc) : Proc :=
  p.goto (match p.purpose with
    | .startUp => .down
    | .commit _ => .serving)

def marks (seqs : List Nat) (res : RecoveredPackResult) : List DurableWrite :=
  seqs.flatMap fun seq => markLogDone seq res.commitOid (some res.packData) (some res.idxData)

def emptyMarks (seqs : List Nat) : List DurableWrite :=
  seqs.flatMap fun seq => markLogDone seq "empty".toList none none

/-- After a commit the next log is started, unless the server shuts down. -/
def nextLog (p : Proc) : Proc :=
  match p.purpose with
  | .commit true => p.goto .down
  | _ => { p with server := { p.server with wal := p.server.wal.advanceSeq }, phase := .openLog }

/-- What follows a recovery. A start takes over what was built and picks its log after the last one. -/
def recovered (p : Proc) (d : Durable) (dirLen : Option Nat) (built : Option RecoveredPackResult) : Proc :=
  match p.purpose with
  | .startUp =>
    let s := built.elim p.server (p.server.adopt dirLen)
    let activeSeq := d.wal.listLogSequences.getLast?.elim 0 (· + 1)
    { p with server := { s with wal := WalManager.new activeSeq, fs := Fs.new s.rootOid }, phase := .openLog }
  | .commit _ =>
    match built with
    | none => p.nextLog
    | some res => p.goto (.reset res)

/-- The header of the log of a server. -/
def headerEntry (cfg : ServerConfig) (p : Proc) : WalEntry :=
  ⟨p.server.wal.entrySeq, p.now, some (.header ⟨cfg.repoIdentifier, p.server.baseCommitOid, cfg.author, [],
    p.now / 10 ^ 9, p.server.wal.activeSeq⟩)⟩

/-- The next storage operation of a server that starts or commits. -/
def advance (cfg : ServerConfig) (p : Proc) (d : Durable) (dirLen : Option Nat) (fault : Option Fault) :
    Option (Proc × Durable) :=
  match p.phase with
  | .serving => none
  | .down => none
  | .list =>
    if fault.isSome then some (p.fail, d)
    else some (p.goto (.lockout d.wal.listLogSequences d.wal.listLogSequences), d)
  | .lockout all (seq :: left) =>
    -- whatever goes wrong with one of the logs is only noted down
    some (p.goto (.lockout all left), if fault.isSome then d else { d with wal := d.wal.sealLog seq })
  | .lockout all [] => some (p.goto (.check all []), d)
  | .check (seq :: left) found =>
    some (p.goto (.check left (if d.wal.isLogDone seq fault.isSome then found else found ++ [seq])), d)
  | .check [] found =>
    if found = [] then some (p.goto (.mark [] none), d)
    else if fault.isSome then some (p.fail, d)
    else
      let info := (p.server.recoverConfig cfg p.now).info
      some (p.goto (.replay found found info (Replay.new p.server.rootOid)), d)
  | .replay seqs (seq :: left) info r =>
    if fault.isSome then some (p.fail, d)
    else
      match replayWalEntries p.server.engine (d.wal.logEntries seq) r with
      | .error _ => some (p.fail, d)
      | .ok r => some (p.goto (.replay seqs left ((d.wal.logEntries seq).foldl CommitInfo.readHeader info) r), d)
  | .replay seqs [] info r =>
    match buildPackFromRecoveredState cfg.zlib p.server.engine r info.baseCommitOid info.author
      info.commitMessage (p.now / 10 ^ 9) with
    | none => none
    | some (.error _) => some (p.fail, d)
    | some (.ok none) => some (p.goto (.mark (emptyMarks seqs) none), d)
    | some (.ok (some res)) =>
      if p.server.engine.gcsStorage then
        some (p.goto (.publish seqs res
          (GcsGitStorage.commitWrites res.commitOid res.packSha res.packData res.idxData cfg.branch)), d)
      else some (p.goto (.mark (marks seqs res) (some res)), d)
  | .publish seqs res (w :: left) =>
    if fault.isSome then some (p.fail, d)
    else some (p.goto (.publish seqs res left), d.write (.repo w.1 w.2))
  | .publish seqs res [] =>
    if fault.isSome then some (p.fail, d)
    else
      let infos := d.repo.refreshPackIndexes.serverInfoWrites res.commitOid cfg.branch
      some (p.goto (.serverInfo seqs res infos), d)
  | .serverInfo seqs res (w :: left) =>
    if fault.isSome then some (p.fail, d)
    else some (p.goto (.serverInfo seqs res left), d.write (.repo w.1 w.2))
  | .serverInfo seqs res [] => some (p.goto (.mark (marks seqs res) (some res)), d)
  | .mark (w :: left) built =>
    match fault with
    | some f => some (p.fail, ((f.torn.bind w.torn).map d.write).getD d)
    | none => some (p.goto (.mark left built), d.write w)
  | .mark [] built => if fault.isSome then some (p.fail, d) else some (p.recovered d dirLen built, d)
  | .reset res =>
    let s := p.server.adopt dirLen res
    let p := { p with server := { s with fs := { s.fs with staging := StagingStore.new } } }
    if fault.isSome then some (p.fail, d) else some (p.nextLog, d)
  | .openLog =>
    if fault.isSome then some (p.fail, d)
    else
      match d.wal.openWriter p.server.wal.activeSeq with
      | (.error _, store) => some (p.fail, { d with wal := store })
      | (.ok (), store) => some (p.goto .header, { d with wal := store })
  | .header =>
    let wal := { p.server.wal with entrySeq := p.server.wal.entrySeq + 1 }
    let p' := { p with server := { p.server with wal } }
    let appendFault := fault.map fun f => if f.torn.isSome then AppendFault.flush else AppendFault.append
    match d.wal.appendEntry p.server.wal.activeSeq (p.headerEntry cfg) appendFault with
    | (.error _, store) => some (p'.fail, { d with wal := store })
    | (.ok (), store) =>
      let wal := { wal with activeWriter := some wal.activeSeq }
      some ({ p' with server := { p.server with wal }, phase := .serving }, { d with wal := store })

/-! ## What one operation does -/

/-- The phases of a recovery. -/
def Phase.busy : Phase → Bool
  | .serving => false
  | .down => false
  | .reset _ => false
  | .openLog => false
  | .header => false
  | _ => true

/-- What an operation of a recovery stores: nothing, the seal of a log, or one of its writes. -/
inductive Touches (d : Durable) : Durable → Prop where
  | nothing : Touches d d
  | sealed (seq : Nat) : Touches d { d with wal := d.wal.sealLog seq }
  | write (w : DurableWrite) : Touches d (d.write w)

/-- Where a server gets to from a phase of a recovery. -/
inductive Moves (p : Proc) (d : Durable) : Proc → Durable → Prop where
  | goto (phase : Phase) (hbusy : phase.busy = true) {d' : Durable} (hd : Touches d d') :
    Moves p d (p.goto phase) d'
  | fail {d' : Durable} (hd : Touches d d') : Moves p d p.fail d'
  | recovered (dirLen : Option Nat) (built : Option RecoveredPackResult) :
    Moves p d (p.recovered d dirLen built) d

theorem advance_moves {cfg : ServerConfig} {p p' : Proc} {d d' : Durable} {dirLen : Option Nat}
    {fault : Option Fault} (h : p.advance cfg d dirLen fault = some (p', d')) (hbusy : p.phase.busy = true) :
    Moves p d p' d' := by
  have hgo (phase : Phase) (hphase : phase.busy = true) {d₁ : Durable} (hd : Touches d d₁)
      (heq : some (p.goto phase, d₁) = some (p', d')) : Moves p d p' d' := by
    simp only [Option.some.injEq, Prod.mk.injEq] at heq
    obtain ⟨rfl, rfl⟩ := heq
    exact .goto phase hphase hd
  have hfail {d₁ : Durable} (hd : Touches d d₁) (heq : some (p.fail, d₁) = some (p', d')) :
      Moves p d p' d' := by
    simp only [Option.some.injEq, Prod.mk.injEq] at heq
    obtain ⟨rfl, rfl⟩ := heq
    exact .fail hd
  unfold advance at h
  cases hphase : p.phase with
  | serving => simp [hphase, Phase.busy] at hbusy
  | down => simp [hphase, Phase.busy] at hbusy
  | reset => simp [hphase, Phase.busy] at hbusy
  | openLog => simp [hphase, Phase.busy] at hbusy
  | header => simp [hphase, Phase.busy] at hbusy
  | list =>
    simp only [hphase] at h
    split_ifs at h
    · exact hfail .nothing h
    · exact hgo _ rfl .nothing h
  | lockout all left =>
    cases left with
    | nil =>
      simp only [hphase] at h
      exact hgo _ rfl .nothing h
    | cons seq left =>
      simp only [hphase] at h
      refine hgo _ rfl ?_ h
      split_ifs
      · exact .nothing
      · exact .sealed seq
  | check left found =>
    cases left with
    | nil =>
      simp only [hphase] at h
      split_ifs at h
      · exact hgo _ rfl .nothing h
      · exact hfail .nothing h
      · exact hgo _ rfl .nothing h
    | cons seq left =>
      simp only [hphase] at h
      exact hgo _ rfl .nothing h
  | replay seqs left info r =>
    cases left with
    | nil =>
      simp only [hphase] at h
      split at h
      · simp at h
      · exact hfail .nothing h
      · exact hgo _ rfl .nothing h
      · split_ifs at h
        · exact hgo _ rfl .nothing h
        · exact hgo _ rfl .nothing h
    | cons seq left =>
      simp only [hphase] at h
      split_ifs at h
      · exact hfail .nothing h
      · split at h
        · exact hfail .nothing h
        · exact hgo _ rfl .nothing h
  | publish seqs res left =>
    cases left with
    | nil =>
      simp only [hphase] at h
      split_ifs at h
      · exact hfail .nothing h
      · exact hgo _ rfl .nothing h
    | cons w left =>
      simp only [hphase] at h
      split_ifs at h
      · exact hfail .nothing h
      · exact hgo _ rfl (.write _) h
  | serverInfo seqs res left =>
    cases left with
    | nil =>
      simp only [hphase] at h
      exact hgo _ rfl .nothing h
    | cons w left =>
      simp only [hphase] at h
      split_ifs at h
      · exact hfail .nothing h
      · exact hgo _ rfl (.write _) h
  | mark left built =>
    cases left with
    | nil =>
      simp only [hphase] at h
      split_ifs at h
      · exact hfail .nothing h
      · simp only [Option.some.injEq, Prod.mk.injEq] at h
        obtain ⟨rfl, rfl⟩ := h
        exact .recovered dirLen built
    | cons w left =>
      simp only [hphase] at h
      split at h
      · rename_i f
        refine hfail ?_ h
        cases f.torn.bind w.torn with
        | none => exact .nothing
        | some w' => exact .write w'
      · exact hgo _ rfl (.write w) h

/-! ## A server that is alone -/

/-- The operations of a server that nothing interrupts and nothing fails. -/
abbrev Alone (cfg : ServerConfig) : Proc × Durable → Proc × Durable → Prop :=
  Relation.ReflTransGen fun x y => x.1.advance cfg x.2 none none = some y

section Alone

variable {cfg : ServerConfig} (p : Proc) (d : Durable)

theorem alone_lockout (all left : List Nat) :
    Alone cfg (p.goto (.lockout all left), d)
      (p.goto (.check all []), { d with wal := d.wal.lockoutZombies (fun _ => false) left }) := by
  induction left generalizing d with
  | nil => exact .single rfl
  | cons seq left ih => exact .head rfl (ih { d with wal := d.wal.sealLog seq })

theorem alone_check (left found : List Nat) :
    Alone cfg (p.goto (.check left found), d)
      (p.goto (.check [] (found ++ left.filter fun seq => !d.wal.isLogDone seq false)), d) := by
  induction left generalizing found with
  | nil => rw [List.filter_nil, List.append_nil]
  | cons seq left ih =>
    refine .head rfl ?_
    refine (ih _).trans ?_
    cases hdone : d.wal.isLogDone seq false <;> (simp [hdone]; rfl)

theorem alone_replay (seqs : List Nat) {left : List Nat} {info info' : CommitInfo} {r r' : Replay}
    (h : replayLogs p.server.engine d.wal .none left info r = .ok (info', r')) :
    Alone cfg (p.goto (.replay seqs left info r), d) (p.goto (.replay seqs [] info' r'), d) := by
  induction left generalizing info r with
  | nil =>
    simp only [replayLogs, Except.ok.injEq, Prod.mk.injEq] at h
    rw [h.1, h.2]
  | cons seq left ih =>
    rw [replayLogs] at h
    simp only [RecoverFaults.none, Bool.false_eq_true, if_false] at h
    split at h
    · simp at h
    · rename_i r₁ hr₁
      refine .head ?_ (ih h)
      simp only [advance, goto, Option.isSome_none, Bool.false_eq_true, if_false, hr₁]

theorem alone_publish (seqs : List Nat) (res : RecoveredPackResult) (ws : List (Str × Bytes)) :
    Alone cfg (p.goto (.publish seqs res ws), d)
      (p.goto (.publish seqs res []), d.writes (ws.map fun w => .repo w.1 w.2)) := by
  induction ws generalizing d with
  | nil => exact .refl
  | cons w ws ih => exact .head rfl (ih (d.write (.repo w.1 w.2)))

theorem alone_serverInfo (seqs : List Nat) (res : RecoveredPackResult) (ws : List (Str × Bytes)) :
    Alone cfg (p.goto (.serverInfo seqs res ws), d)
      (p.goto (.serverInfo seqs res []), d.writes (ws.map fun w => .repo w.1 w.2)) := by
  induction ws generalizing d with
  | nil => exact .refl
  | cons w ws ih => exact .head rfl (ih (d.write (.repo w.1 w.2)))

theorem alone_mark (ws : List DurableWrite) (built : Option RecoveredPackResult) :
    Alone cfg (p.goto (.mark ws built), d) (p.goto (.mark [] built), d.writes ws) := by
  induction ws generalizing d with
  | nil => exact .refl
  | cons w ws ih => exact .head rfl (ih (d.write w))

theorem writes_repo (ws : List (Str × Bytes)) :
    (d.writes (ws.map fun w => .repo w.1 w.2)).repo = ws.foldl GcsGitStorage.writeObject d.repo := by
  induction ws generalizing d with
  | nil => rfl
  | cons w ws ih => exact ih _

/-- The writes of a recovery, once it knows what it has built. -/
theorem alone_writes (seqs : List Nat) (info : CommitInfo) (r : Replay) {built : Option RecoveredPackResult}
    (h : buildPackFromRecoveredState cfg.zlib p.server.engine r info.baseCommitOid info.author
      info.commitMessage (p.now / 10 ^ 9) = some (.ok built)) :
    Alone cfg (p.goto (.replay seqs [] info r), d)
      (p.goto (.mark [] built), d.writes (recoveryWrites p.server.engine d cfg.branch seqs built)) := by
  cases built with
  | none =>
    refine .head (b := (p.goto (.mark (emptyMarks seqs) none), d)) ?_ (alone_mark p d _ none)
    simp only [advance, goto, h]
  | some res =>
    cases hgcs : p.server.engine.gcsStorage with
    | false =>
      refine .head (b := (p.goto (.mark (marks seqs res) (some res)), d)) ?_ ?_
      · simp only [advance, goto, h, hgcs, Bool.false_eq_true, if_false]
      · simp only [recoveryWrites, hgcs, Bool.false_eq_true, if_false, List.nil_append]
        exact alone_mark p d _ _
    | true =>
      let ws := GcsGitStorage.commitWrites res.commitOid res.packSha res.packData res.idxData cfg.branch
      let d₁ := d.writes (ws.map fun w => .repo w.1 w.2)
      let infos := d₁.repo.refreshPackIndexes.serverInfoWrites res.commitOid cfg.branch
      refine .head (b := (p.goto (.publish seqs res ws), d)) ?_ ?_
      · simp only [advance, goto, h, hgcs, if_true]
        rfl
      refine (alone_publish p d seqs res ws).trans ?_
      refine .head (b := (p.goto (.serverInfo seqs res infos), d₁)) rfl ?_
      refine (alone_serverInfo p d₁ seqs res infos).trans ?_
      refine .head (b := (p.goto (.mark (marks seqs res) (some res)), _)) rfl ?_
      have hwrites : recoveryWrites p.server.engine d cfg.branch seqs (some res) =
          (ws.map fun w => DurableWrite.repo w.1 w.2) ++
            ((infos.map fun w => DurableWrite.repo w.1 w.2) ++ marks seqs res) := by
        simp only [recoveryWrites, hgcs, if_true, GcsGitStorage.completedCommitWrites, List.map_append,
          List.append_assoc, infos, d₁, writes_repo]
        rfl
      rw [hwrites, Durable.writes_append, Durable.writes_append]
      exact alone_mark p _ _ _

/-- Alone, a server does what `recover_and_replay_uncommitted` is said to do. -/
theorem alone_recovery {d' : Durable} {built : Option RecoveredPackResult} (hp : p.phase = .list)
    (h : recoverAndReplayUncommitted cfg.zlib p.server.engine d (p.server.recoverConfig cfg p.now) .none =
      some (.ok built, d')) :
    Alone cfg (p, d) (p.goto (.mark [] built), d') := by
  obtain ⟨store, hstore⟩ : ∃ store, store = d.wal.lockoutZombies (fun _ => false) d.wal.listLogSequences :=
    ⟨_, rfl⟩
  have hseqs : uncommittedSeqs store .none =
      d.wal.listLogSequences.filter fun seq => !store.isLogDone seq false := by
    have hsame := d.wal.lockoutZombies_sameLogs (fun _ => false) d.wal.listLogSequences
    rw [← hstore] at hsame
    rw [uncommittedSeqs, hsame.listLogSequences]
    rfl
  have hstart : Alone cfg (p, d) (p.goto (.check [] (uncommittedSeqs store .none)), { d with wal := store }) := by
    refine .head (b := (p.goto (.lockout d.wal.listLogSequences d.wal.listLogSequences), d)) ?_ ?_
    · simp only [advance, hp, Option.isSome_none, Bool.false_eq_true, if_false]
    refine (alone_lockout p d _ _).trans ?_
    rw [← hstore, hseqs]
    exact alone_check p { d with wal := store } d.wal.listLogSequences []
  refine hstart.trans ?_
  unfold recoverAndReplayUncommitted at h
  rw [if_neg (by decide)] at h
  have hlockout : RecoverFaults.none.lockout = fun _ => false := rfl
  simp only [hlockout, ← hstore] at h
  generalize uncommittedSeqs store .none = seqs at h ⊢
  split at h
  · simp only [Option.some.injEq, Prod.mk.injEq, Except.ok.injEq] at h
    obtain ⟨rfl, rfl⟩ := h
    exact .single rfl
  · rename_i hne
    split at h
    · simp at h
    · simp at h
    · rename_i res hbuild
      simp only [RecoverFaults.none, Option.some.injEq, Prod.mk.injEq, Except.ok.injEq] at h
      obtain ⟨rfl, rfl⟩ := h
      unfold buildRecovery at hbuild
      rw [if_neg (by decide)] at hbuild
      split at hbuild
      · simp at hbuild
      · rename_i info r hreplay
        refine .head (b := (p.goto (.replay seqs seqs (p.server.recoverConfig cfg p.now).info
          (Replay.new p.server.rootOid)), { d with wal := store })) ?_ ?_
        · have hne' : seqs ≠ [] := hne
          simp only [advance, goto, if_neg hne', Option.isSome_none, Bool.false_eq_true, if_false]
        · exact (alone_replay p { d with wal := store } seqs hreplay).trans
            (alone_writes p { d with wal := store } seqs info r hbuild)

end Alone

end Proc

end GitNfs
