import GitNfs.Nfs.Fs

/-! # The server

One process: its file system, its engine, its WAL, and the commit it stands on.
-/

namespace GitNfs

structure ServerConfig where
  zlib : Bytes → Bytes
  author : Str
  repoIdentifier : Str
  branch : Option Str

structure Server where
  fs : Fs
  engine : GitEngine
  wal : WalManager
  rootOid : Str
  baseCommitOid : Str

/-! ## Requests that change something -/

inductive NfsOp where
  | create (dirid : Nat) (filename : Bytes)
  | createExclusive (dirid : Nat) (filename : Bytes)
  | mkdir (dirid : Nat) (dirname : Bytes)
  | write (id offset : Nat) (data : Bytes)
  | setattr (id : Nat) (size : Option Nat)
  | remove (dirid : Nat) (filename : Bytes)
  | rename (fromDirid : Nat) (fromFilename : Bytes) (toDirid : Nat) (toFilename : Bytes)
  deriving DecidableEq, Repr

def Handled.map {α β : Type} (f : α → β) (h : Handled α) : Handled β :=
  ⟨h.answer.map f, h.fs, h.logged⟩

/-- The handler of a request, its answer cut down to whether it succeeded. -/
def Fs.handle (g : GitEngine) (fs : Fs) (now : Nat) (fault : Option IoFault) : NfsOp → Option (Handled Unit)
  | .create dirid filename => (fs.create g now dirid filename fault).map (Handled.map fun _ => ())
  | .createExclusive dirid filename =>
    (fs.createExclusive g now dirid filename fault).map (Handled.map fun _ => ())
  | .mkdir dirid dirname => (fs.mkdir g now dirid dirname).map (Handled.map fun _ => ())
  | .write id offset data => (fs.write g now id offset data fault).map (Handled.map fun _ => ())
  | .setattr id size => (fs.setattr g now id size fault).map (Handled.map fun _ => ())
  | .remove dirid filename => fs.remove g now dirid filename
  | .rename fromDirid fromFilename toDirid toFilename =>
    fs.rename g now fromDirid fromFilename toDirid toFilename

/-- What `log_mutation` does with what a handler gives it; the handler drops the result. -/
def Server.log (s : Server) (d : Durable) (now : Nat) (fault : Option AppendFault) :
    Option WalPayload → Server × Durable
  | none => (s, d)
  | some payload =>
    let (_, wal, store) := s.wal.logMutation d.wal now payload fault
    ({ s with wal }, { d with wal := store })

/-- A request from its arrival to its answer. -/
def Server.mutate (s : Server) (d : Durable) (now : Nat) (op : NfsOp) (ioFault : Option IoFault)
    (appendFault : Option AppendFault) : Option (Except NfsStat Unit × Server × Durable) :=
  match s.fs.handle s.engine now ioFault op with
  | none => none
  | some h => some (h.answer, { s with fs := h.fs }.log d now appendFault h.logged)

/-! ## Committing -/

structure CommitFaults where
  finalize : Bool
  recover : RecoverFaults
  /-- The pack or the index in the working directory. -/
  localPack : Bool
  reset : Option ResetFault
  start : Option StartFault

def CommitFaults.none : CommitFaults := ⟨false, .none, false, Option.none, Option.none⟩

def Server.recoverConfig (cfg : ServerConfig) (s : Server) (now : Nat) : RecoverConfig :=
  ⟨s.rootOid, s.baseCommitOid, cfg.author, [], cfg.branch, now / 10 ^ 9⟩

/-- The engine and the base move on to a commit that was built. -/
def Server.adopt (s : Server) (dirLen : Option Nat) (res : RecoveredPackResult) : Server :=
  { s with engine := s.engine.applyRecoveredObjects dirLen res.commitOid res.rootTreeOid res.objects
           rootOid := res.rootTreeOid
           baseCommitOid := res.commitOid }

/-- `advance_seq` and `start_active_wal`. -/
def Server.nextWal (cfg : ServerConfig) (s : Server) (d : Durable) (now : Nat) (fault : Option StartFault) :
    Except Error Unit × Server × Durable :=
  let (res, wal, store) :=
    s.wal.advanceSeq.startActiveWal d.wal now cfg.repoIdentifier s.baseCommitOid cfg.author [] fault
  (res, { s with wal }, { d with wal := store })

def performCommit (cfg : ServerConfig) (s : Server) (d : Durable) (now : Nat) (dirLen : Option Nat)
    (isShutdown : Bool) (faults : CommitFaults) :
    Option (Except Error (Option RecoveredPackResult) × Server × Durable) :=
  match s.wal.finalizeActiveWal d.wal faults.finalize with
  | (.error e, wal, store) => some (.error e, { s with wal }, { d with wal := store })
  | (.ok (), wal, store) =>
    let s := { s with wal }
    let d := { d with wal := store }
    match recoverAndReplayUncommitted cfg.zlib s.engine d (s.recoverConfig cfg now) faults.recover with
    | none => none
    | some (.error e, d) => some (.error e, s, d)
    | some (.ok none, d) =>
      if isShutdown then some (.ok none, s, d)
      else
        let (started, s, d) := s.nextWal cfg d now faults.start
        some (started.map fun _ => none, s, d)
    | some (.ok (some res), d) =>
      if faults.localPack then some (.error .io, s, d)
      else
        let s := s.adopt dirLen res
        let (cleared, staging) := s.fs.staging.reset faults.reset
        let s := { s with fs := { s.fs with staging } }
        match cleared with
        | .error e => some (.error e, s, d)
        | .ok () =>
          if isShutdown then some (.ok (some res), s, d)
          else
            let (started, s, d) := s.nextWal cfg d now faults.start
            some (started.map fun _ => some res, s, d)

/-- One tick of the auto-commit task. -/
def autoCommitTick (cfg : ServerConfig) (s : Server) (d : Durable) (now : Nat) (dirLen : Option Nat)
    (faults : CommitFaults) : Option (Server × Durable) :=
  if s.fs.hasUncommittedChanges && s.fs.lastMutationTime + 30 ≤ now / 10 ^ 9 then
    match performCommit cfg s d now dirLen false faults with
    | none => none
    | some (.error _, s, d) => some (s, d)
    | some (.ok _, s, d) => some ({ s with fs := { s.fs with hasUncommittedChanges := false } }, d)
  else some (s, d)

/-! ## Starting -/

/-- What fails while a server starts: its recovery, the pack it writes, its listing, its new log. -/
structure StartUpFaults where
  recover : RecoverFaults
  localPack : Bool
  list : Bool
  start : Option StartFault

def StartUpFaults.none : StartUpFaults := ⟨.none, false, false, Option.none⟩

/-- A start over an engine that was initialized: recovery, then a log of its own after the last one. -/
def startServer (cfg : ServerConfig) (g : GitEngine) (rootOid baseCommitOid : Str) (d : Durable)
    (now : Nat) (dirLen : Option Nat) (faults : StartUpFaults) : Option (Except Error Server × Durable) :=
  let s : Server := ⟨Fs.new rootOid, g, WalManager.new 0, rootOid, baseCommitOid⟩
  match recoverAndReplayUncommitted cfg.zlib g d (s.recoverConfig cfg now) faults.recover with
  | none => none
  | some (.error e, d) => some (.error e, d)
  | some (.ok recovered, d) =>
    if recovered.isSome && faults.localPack || faults.list then some (.error .io, d)
    else
      let s := recovered.elim s (s.adopt dirLen)
      let activeSeq := d.wal.listLogSequences.getLast?.elim 0 (· + 1)
      let (started, wal, store) :=
        (WalManager.new activeSeq).startActiveWal d.wal now cfg.repoIdentifier s.baseCommitOid
          cfg.author [] faults.start
      some (started.map fun _ => { s with wal, fs := Fs.new s.rootOid }, { d with wal := store })

end GitNfs
