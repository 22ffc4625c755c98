import GitNfs.Git.GcsStorage
import GitNfs.Wal.Backend
import GitNfs.Wal.Recovery

/-! # The WAL of one server, and recovery -/

namespace GitNfs

/-- What outlives a server: its logs with their markers, and the repository in the bucket. -/
structure Durable where
  wal : WalStore
  repo : GcsGitStorage

namespace Durable

def write (d : Durable) : DurableWrite → Durable
  | .repo name data => { d with repo := d.repo.writeObject (name, data) }
  | .done seq data => { d with wal := { d.wal with done := Function.update d.wal.done seq (some data) } }
  | .pack seq data => { d with wal := { d.wal with pack := Function.update d.wal.pack seq (some data) } }
  | .idx seq data => { d with wal := { d.wal with idx := Function.update d.wal.idx seq (some data) } }

def writes (d : Durable) (ws : List DurableWrite) : Durable := ws.foldl write d

theorem writes_append (d : Durable) (ws vs : List DurableWrite) :
    d.writes (ws ++ vs) = (d.writes ws).writes vs := List.foldl_append

/-- What is left when the writes break off. -/
def crash (d : Durable) (ws : List DurableWrite) (p : CrashPoint) : Durable :=
  let d := d.writes (ws.take p.writes)
  match p.torn, ws[p.writes]? with
  | some n, some w => ((w.torn n).map d.write).getD d
  | _, _ => d

end Durable

/-! ## The active log -/

structure WalManager where
  activeSeq : Nat
  /-- The log that the writer appends to, if there is a writer. -/
  activeWriter : Option Nat
  entrySeq : Nat
  deriving DecidableEq, Repr

inductive StartFault where
  | openWriter
  | append (fault : AppendFault)
  deriving DecidableEq, Repr

namespace WalManager

def new (activeSeq : Nat) : WalManager := ⟨activeSeq, none, 1⟩

def advanceSeq (m : WalManager) : WalManager :=
  { m with entrySeq := 1, activeSeq := m.activeSeq + 1 }

def startActiveWal (m : WalManager) (s : WalStore) (now : Nat) (repoUrl baseCommitOid author
    commitMessage : Str) (fault : Option StartFault) : Except Error Unit × WalManager × WalStore :=
  match if fault = some .openWriter then (.error .io, s) else s.openWriter m.activeSeq with
  | (.error e, s) => (.error e, m, s)
  | (.ok (), s) =>
    let header := WalHeader.mk repoUrl baseCommitOid author commitMessage (now / 10 ^ 9) m.activeSeq
    let entry := WalEntry.mk m.entrySeq now (some (.header header))
    let m := { m with entrySeq := m.entrySeq + 1 }
    let appendFault :=
      match fault with
      | some (.append fault) => some fault
      | _ => none
    match s.appendEntry m.activeSeq entry appendFault with
    | (.error e, s) => (.error e, m, s)
    | (.ok (), s) => (.ok (), { m with activeWriter := some m.activeSeq }, s)

/-- With no writer the entry goes nowhere, and that is no error. -/
def logMutation (m : WalManager) (s : WalStore) (now : Nat) (payload : WalPayload)
    (fault : Option AppendFault) : Except Error Unit × WalManager × WalStore :=
  let entry := WalEntry.mk m.entrySeq now (some payload)
  let m := { m with entrySeq := m.entrySeq + 1 }
  match m.activeWriter with
  | none => (.ok (), m, s)
  | some seq =>
    let (res, s) := s.appendEntry seq entry fault
    (res, m, s)

/-- The writer is taken before it is known whether it finalizes. -/
def finalizeActiveWal (m : WalManager) (s : WalStore) (fails : Bool) :
    Except Error Unit × WalManager × WalStore :=
  match m.activeWriter with
  | none => (.ok (), m, s)
  | some seq =>
    let (res, s) := s.finalizeWriter seq fails
    (res, { m with activeWriter := none }, s)

end WalManager

/-! ## Recovery -/

structure RecoverConfig where
  rootOid : Str
  defaultBaseCommitOid : Str
  defaultAuthor : Str
  defaultCommitMessage : Str
  branch : Option Str
  timestamp : Nat

/-- What fails during a recovery: the listing, the lockout of a log, the lookup of a marker, the reading
of a log, the staging store of the replay, and one of the writes. -/
structure RecoverFaults where
  list : Bool
  lockout : Nat → Bool
  doneLookup : Nat → Bool
  readLog : Nat → Bool
  staging : Bool
  writes : Option CrashPoint

def RecoverFaults.none : RecoverFaults :=
  ⟨false, fun _ => false, fun _ => false, fun _ => false, false, Option.none⟩

/-- The commit that the logs are put on, as far as their headers were read. -/
structure CommitInfo where
  baseCommitOid : Str
  author : Str
  commitMessage : Str
  deriving DecidableEq, Repr

def CommitInfo.readHeader (info : CommitInfo) (entry : WalEntry) : CommitInfo :=
  match entry.payload with
  | some (.header h) =>
    { baseCommitOid := if h.baseCommitOid ≠ [] then h.baseCommitOid else info.baseCommitOid
      author := if h.author ≠ [] then h.author else info.author
      commitMessage :=
        if h.commitMessage ≠ [] then "Recovered from crash: ".toList ++ h.commitMessage
        else info.commitMessage }
  | _ => info

def RecoverConfig.info (cfg : RecoverConfig) : CommitInfo :=
  ⟨cfg.defaultBaseCommitOid, cfg.defaultAuthor, cfg.defaultCommitMessage⟩

def WalStore.logEntries (s : WalStore) (seq : Nat) : List WalEntry :=
  match s.logs.lookup seq with
  | some log => log.entries
  | none => []

/-- The logs one after the other, their headers and their mutations. -/
def replayLogs (g : GitEngine) (s : WalStore) (faults : RecoverFaults) :
    List Nat → CommitInfo → Replay → Except Error (CommitInfo × Replay)
  | [], info, r => .ok (info, r)
  | seq :: seqs, info, r =>
    if faults.readLog seq then .error .io
    else
      match replayWalEntries g (s.logEntries seq) r with
      | .error e => .error e
      | .ok r => replayLogs g s faults seqs ((s.logEntries seq).foldl CommitInfo.readHeader info) r

/-- The writes that close the logs of a recovery, the published objects first. -/
def recoveryWrites (g : GitEngine) (d : Durable) (branch : Option Str) (seqs : List Nat) :
    Option RecoveredPackResult → List DurableWrite
  | some res =>
    (if g.gcsStorage then
      (d.repo.completedCommitWrites res.commitOid res.packSha res.packData res.idxData branch).map
        fun w => DurableWrite.repo w.1 w.2
    else []) ++
    seqs.flatMap fun seq => markLogDone seq res.commitOid (some res.packData) (some res.idxData)
  | none => seqs.flatMap fun seq => markLogDone seq "empty".toList none none

def uncommittedSeqs (s : WalStore) (faults : RecoverFaults) : List Nat :=
  s.listLogSequences.filter fun seq => !s.isLogDone seq (faults.doneLookup seq)

/-- What a recovery builds from the logs that are not done, before it writes anything. -/
def buildRecovery (zlib : Bytes → Bytes) (g : GitEngine) (s : WalStore) (cfg : RecoverConfig)
    (faults : RecoverFaults) (seqs : List Nat) : Option (Except Error (Option RecoveredPackResult)) :=
  if faults.staging then some (.error .io)
  else
    match replayLogs g s faults seqs cfg.info (Replay.new cfg.rootOid) with
    | .error e => some (.error e)
    | .ok (info, r) =>
      buildPackFromRecoveredState zlib g r info.baseCommitOid info.author info.commitMessage cfg.timestamp

/-- The whole of `recover_and_replay_uncommitted`; `none` if the rebuilding never ends. -/
def recoverAndReplayUncommitted (zlib : Bytes → Bytes) (g : GitEngine) (d : Durable)
    (cfg : RecoverConfig) (faults : RecoverFaults) :
    Option (Except Error (Option RecoveredPackResult) × Durable) :=
  if faults.list then some (.error .io, d)
  else
    let allSeqs := d.wal.listLogSequences
    let d := { d with wal := d.wal.lockoutZombies faults.lockout allSeqs }
    match uncommittedSeqs d.wal faults with
    | [] => some (.ok none, d)
    | seqs =>
      match buildRecovery zlib g d.wal cfg faults seqs with
      | none => none
      | some (.error e) => some (.error e, d)
      | some (.ok res) =>
        let ws := recoveryWrites g d cfg.branch seqs res
        match faults.writes with
        | none => some (.ok res, d.writes ws)
        | some p =>
          if p.writes < ws.length then some (.error .io, d.crash ws p) else some (.ok res, d.writes ws)

/-- What a recovery builds has the id of a commit, and its pack and index are those of its objects. -/
theorem buildRecovery_ok {zlib : Bytes → Bytes} {g : GitEngine} {s : WalStore} {cfg : RecoverConfig}
    {faults : RecoverFaults} {seqs : List Nat} {res : RecoveredPackResult}
    (h : buildRecovery zlib g s cfg faults seqs = some (.ok (some res))) :
    ∃ info r, replayLogs g s faults seqs cfg.info (Replay.new cfg.rootOid) = .ok (info, r) ∧
      r.staging.hasModifications = true ∧
      rebuildGitObjects r.vfs r.staging g info.baseCommitOid info.author info.commitMessage cfg.timestamp =
        some (.ok ⟨res.commitOid, res.rootTreeOid, res.objects⟩) ∧
      createPackAndIndexBytes zlib res.objects = .ok (res.packData, res.idxData, res.packSha) := by
  unfold buildRecovery at h
  split_ifs at h
  · simp at h
  · split at h
    · simp at h
    · rename_i info r hreplay
      exact ⟨info, r, hreplay, buildPackFromRecoveredState_ok h⟩

theorem WalStore.SameLogs.logEntries {s t : WalStore} (h : SameLogs s t) : t.logEntries = s.logEntries := by
  funext seq
  have := h.entries seq
  unfold WalStore.logEntries
  cases ht : t.logs.lookup seq <;> cases hs : s.logs.lookup seq <;> simp_all

theorem WalStore.SameLogs.uncommittedSeqs {s t : WalStore} (h : SameLogs s t) (faults : RecoverFaults) :
    uncommittedSeqs t faults = GitNfs.uncommittedSeqs s faults := by
  simp only [GitNfs.uncommittedSeqs, h.listLogSequences, isLogDone, h.done]

theorem WalStore.SameLogs.replayLogs {g : GitEngine} {s t : WalStore} (h : SameLogs s t)
    (faults : RecoverFaults) (seqs : List Nat) (info : CommitInfo) (r : Replay) :
    replayLogs g t faults seqs info r = GitNfs.replayLogs g s faults seqs info r := by
  induction seqs generalizing info r with
  | nil => rfl
  | cons seq seqs ih => simp only [GitNfs.replayLogs, h.logEntries, ih]

theorem WalStore.SameLogs.buildRecovery {zlib : Bytes → Bytes} {g : GitEngine} {s t : WalStore}
    (h : SameLogs s t) (cfg : RecoverConfig) (faults : RecoverFaults) (seqs : List Nat) :
    buildRecovery zlib g t cfg faults seqs = GitNfs.buildRecovery zlib g s cfg faults seqs := by
  simp only [GitNfs.buildRecovery, h.replayLogs]

/-- What a recovery can come to: it stops before it writes anything, it finds nothing to do, or it builds
something and then writes all of it or a part. -/
theorem recover_cases {zlib : Bytes → Bytes} {g : GitEngine} {d d' : Durable} {cfg : RecoverConfig}
    {faults : RecoverFaults} {res : Except Error (Option RecoveredPackResult)}
    (h : recoverAndReplayUncommitted zlib g d cfg faults = some (res, d')) :
    ∃ store, WalStore.SameLogs d.wal store ∧
      ((∃ e, res = .error e ∧ d' = { d with wal := store }) ∨
       (res = .ok none ∧ uncommittedSeqs store faults = [] ∧ d' = { d with wal := store }) ∨
       ∃ built, uncommittedSeqs store faults ≠ [] ∧
        buildRecovery zlib g store cfg faults (uncommittedSeqs store faults) = some (.ok built) ∧
        let ws := recoveryWrites g { d with wal := store } cfg.branch (uncommittedSeqs store faults) built
        ((res = .ok built ∧ d' = Durable.writes { d with wal := store } ws) ∨
         ∃ p : CrashPoint, faults.writes = some p ∧ p.writes < ws.length ∧ res = .error .io ∧
          d' = Durable.crash { d with wal := store } ws p)) := by
  unfold recoverAndReplayUncommitted at h
  split_ifs at h with hlist
  · simp only [Option.some.injEq, Prod.mk.injEq] at h
    exact ⟨d.wal, .refl _, .inl ⟨.io, h.1.symm, h.2.symm⟩⟩
  · refine ⟨d.wal.lockoutZombies faults.lockout d.wal.listLogSequences,
      d.wal.lockoutZombies_sameLogs _ _, ?_⟩
    simp only at h
    generalize hstore : d.wal.lockoutZombies faults.lockout d.wal.listLogSequences = store at h ⊢
    split at h
    · rename_i hseqs
      simp only [Option.some.injEq, Prod.mk.injEq] at h
      exact .inr (.inl ⟨h.1.symm, hseqs, h.2.symm⟩)
    · rename_i hseqs
      split at h
      · simp at h
      · rename_i e hbuild
        simp only [Option.some.injEq, Prod.mk.injEq] at h
        exact .inl ⟨e, h.1.symm, h.2.symm⟩
      · rename_i built hbuild
        refine .inr (.inr ⟨built, hseqs, hbuild, ?_⟩)
        split at h
        · simp only [Option.some.injEq, Prod.mk.injEq] at h
          exact .inl ⟨h.1.symm, h.2.symm⟩
        · rename_i p hp
          split_ifs at h with hlt
          · simp only [Option.some.injEq, Prod.mk.injEq] at h
            exact .inr ⟨p, hp, hlt, h.1.symm, h.2.symm⟩
          · simp only [Option.some.injEq, Prod.mk.injEq] at h
            exact .inl ⟨h.1.symm, h.2.symm⟩

end GitNfs
