import GitNfs.Lib.Run
import GitNfs.Wal.Framing
import GitNfs.Wal.Manager

/-! # The WAL of one manager, byte by byte

An append can fail after any number of the bytes of its frame, and what it wrote stays in the log. `encode`
and `decode` are those of `prost`.
-/

namespace GitNfs

structure ByteLog where
  bytes : Bytes
  sealed : Bool
  deriving DecidableEq, Repr

structure ByteStore where
  kind : BackendKind
  logs : Nat → Option ByteLog

namespace ByteStore

def readLog (s : ByteStore) (seq : Nat) : Bytes := (s.logs seq).elim [] ByteLog.bytes

def setLog (s : ByteStore) (seq : Nat) (log : ByteLog) : ByteStore :=
  { s with logs := Function.update s.logs seq (some log) }

def openWriter (s : ByteStore) (seq : Nat) : Except Error Unit × ByteStore :=
  match s.kind, s.logs seq with
  | .localFs, some log => if log.sealed then (.error (.sealed seq), s) else (.ok (), s)
  | _, _ => (.ok (), s.setLog seq ⟨[], false⟩)

/-- `append_entry` and `flush` of a writer; `torn` is how far a write comes that fails. -/
def appendEntry (encode : WalEntry → Bytes) (s : ByteStore) (seq : Nat) (entry : WalEntry) (torn : Option Nat) :
    Except Error Unit × ByteStore :=
  match s.logs seq with
  | none => (.error .io, s)
  | some log =>
    if s.kind = .gcs ∧ log.sealed then (.error (.sealed seq), s)
    else
      let framed := entry.encodeFramed encode
      match torn with
      | some n => (.error .io, s.setLog seq { log with bytes := log.bytes ++ framed.take n })
      | none => (.ok (), s.setLog seq { log with bytes := log.bytes ++ framed })

/-- `finalize` of a writer. -/
def finalizeWriter (s : ByteStore) (seq : Nat) (fails : Bool) : Except Error Unit × ByteStore :=
  match s.kind with
  | .localFs => if fails then (.error .io, s) else (.ok (), s)
  | .gcs =>
    match s.logs seq with
    | none => (.error .io, s)
    | some log =>
      if log.sealed then (.error (.sealed seq), s)
      else if fails then (.error .io, s)
      else (.ok (), s.setLog seq { log with sealed := true })

end ByteStore

/-! ## The calls of a manager -/

inductive WalCall
  | startActiveWal (now : Nat) (repoUrl baseCommitOid author commitMessage : Str) (openFails : Bool)
      (torn : Option Nat)
  | logMutation (now : Nat) (payload : WalPayload) (torn : Option Nat)
  | finalizeActiveWal (fails : Bool)
  | advanceSeq
  deriving DecidableEq, Repr

/-- A manager and its logs, with the entries of the mutations that it acknowledged and where they went. -/
structure ByteWal where
  manager : WalManager
  store : ByteStore
  acked : List (Option Nat × WalEntry)

namespace ByteWal

def new (store : ByteStore) (activeSeq : Nat) : ByteWal := ⟨.new activeSeq, store, []⟩

variable (encode : WalEntry → Bytes) (decode : Bytes → Option WalEntry)

def startActiveWal (w : ByteWal) (now : Nat) (repoUrl baseCommitOid author commitMessage : Str)
    (openFails : Bool) (torn : Option Nat) : ByteWal :=
  let m := w.manager
  match if openFails then (.error .io, w.store) else w.store.openWriter m.activeSeq with
  | (.error _, s) => { w with store := s }
  | (.ok (), s) =>
    let header := WalHeader.mk repoUrl baseCommitOid author commitMessage (now / 10 ^ 9) m.activeSeq
    let entry := WalEntry.mk m.entrySeq now (some (.header header))
    let m := { m with entrySeq := m.entrySeq + 1 }
    match s.appendEntry encode m.activeSeq entry torn with
    | (.error _, s) => { w with manager := m, store := s }
    | (.ok (), s) => { w with manager := { m with activeWriter := some m.activeSeq }, store := s }

/-- The entry that `log_mutation` makes of a payload. -/
def entryOf (w : ByteWal) (now : Nat) (payload : WalPayload) : WalEntry :=
  ⟨w.manager.entrySeq, now, some payload⟩

/-- Without a writer the entry is acknowledged and goes nowhere. -/
def logMutation (w : ByteWal) (now : Nat) (payload : WalPayload) (torn : Option Nat) : ByteWal :=
  let entry := w.entryOf now payload
  let m := { w.manager with entrySeq := w.manager.entrySeq + 1 }
  match m.activeWriter with
  | none => { w with manager := m, acked := w.acked ++ [(none, entry)] }
  | some seq =>
    match w.store.appendEntry encode seq entry torn with
    | (.error _, s) => { w with manager := m, store := s }
    | (.ok (), s) => ⟨m, s, w.acked ++ [(some seq, entry)]⟩

def finalizeActiveWal (w : ByteWal) (fails : Bool) : ByteWal :=
  match w.manager.activeWriter with
  | none => w
  | some seq =>
    { w with manager := { w.manager with activeWriter := none }, store := (w.store.finalizeWriter seq fails).2 }

def step (w : ByteWal) : WalCall → Option ByteWal
  | .startActiveWal now repoUrl baseCommitOid author commitMessage openFails torn =>
    some (w.startActiveWal encode now repoUrl baseCommitOid author commitMessage openFails torn)
  | .logMutation now payload torn => some (w.logMutation encode now payload torn)
  | .finalizeActiveWal fails => some (w.finalizeActiveWal fails)
  | .advanceSeq => some { w with manager := w.manager.advanceSeq }

/-- The acknowledged entries of one log, in call order. -/
def ackedIn (w : ByteWal) (seq : Nat) : List WalEntry :=
  w.acked.filterMap fun a => if a.1 = some seq then some a.2 else none

/-- Every acknowledged entry went to a log, and is read back from it. -/
def Recoverable (w : ByteWal) : Prop :=
  (∀ a ∈ w.acked, a.1 ≠ none) ∧
    ∀ seq, (w.ackedIn seq).Sublist (WalEntry.decodeAllFramed decode (w.store.readLog seq)).1

/-- The log is read to its end: there is no partial frame that a next one would be read into. -/
def ReadsToEnd (s : ByteStore) (seq : Nat) : Prop :=
  (WalEntry.decodeAllFramed decode (s.readLog seq)).2 = (s.readLog seq).length

/-- A mutation that is acknowledged finds a writer, on a log that is read to its end, and its length fits its
prefix. In a bucket no log is opened anew that holds acknowledged entries, or, unless that succeeds, that the
writer is on. -/
def Safe (w : ByteWal) : WalCall → Prop
  | .startActiveWal _ _ _ _ _ openFails torn =>
    w.store.kind = .gcs → openFails = false →
      (∀ a ∈ w.acked, a.1 ≠ some w.manager.activeSeq) ∧
      (torn = none ∨ w.manager.activeWriter ≠ some w.manager.activeSeq)
  | .logMutation now payload torn =>
    ∃ seq, w.manager.activeWriter = some seq ∧
      (torn = none → ReadsToEnd decode w.store seq ∧ (encode (w.entryOf now payload)).length < 2 ^ 32)
  | _ => True

/-- What is assumed of `prost` for the entry of a mutation. -/
def Decodes (w : ByteWal) : WalCall → Prop
  | .logMutation now payload _ => decode (encode (w.entryOf now payload)) = some (w.entryOf now payload)
  | _ => True

/-! ## What a call does to the bytes -/

variable {encode decode} {w w' : ByteWal} {s s' : ByteStore}

theorem readLog_setLog (s : ByteStore) (seq : Nat) (log : ByteLog) (i : Nat) :
    (s.setLog seq log).readLog i = if i = seq then log.bytes else s.readLog i := by
  unfold ByteStore.readLog ByteStore.setLog
  simp only [Function.update_apply]
  split_ifs <;> rfl

/-- Nothing that was in a log is gone. -/
def Grows (s s' : ByteStore) : Prop := ∀ seq, s.readLog seq <+: s'.readLog seq

theorem Grows.refl (s : ByteStore) : Grows s s := fun _ => List.prefix_rfl

theorem Grows.trans {s₁ s₂ s₃ : ByteStore} (h : Grows s₁ s₂) (h' : Grows s₂ s₃) : Grows s₁ s₃ :=
  fun seq => (h seq).trans (h' seq)

theorem grows_setLog {seq : Nat} {log : ByteLog} (h : s.readLog seq <+: log.bytes) :
    Grows s (s.setLog seq log) := by
  intro i
  rw [readLog_setLog]
  split_ifs with hi
  · exact hi ▸ h
  · exact List.prefix_rfl

theorem readLog_of_log {seq : Nat} {log : ByteLog} (h : s.logs seq = some log) : s.readLog seq = log.bytes := by
  unfold ByteStore.readLog
  rw [h]
  rfl

/-- An append comes to nothing, leaves a part of its frame, or writes the whole of it. -/
theorem appendEntry_cases (encode : WalEntry → Bytes) (s : ByteStore) (seq : Nat) (entry : WalEntry)
    (torn : Option Nat) :
    (∃ e, s.appendEntry encode seq entry torn = (.error e, s)) ∨
    ∃ log, s.logs seq = some log ∧
      ((∃ n, torn = some n ∧ s.appendEntry encode seq entry torn =
        (.error .io, s.setLog seq { log with bytes := log.bytes ++ (entry.encodeFramed encode).take n })) ∨
      torn = none ∧ s.appendEntry encode seq entry torn =
        (.ok (), s.setLog seq { log with bytes := log.bytes ++ entry.encodeFramed encode })) := by
  unfold ByteStore.appendEntry
  cases hlog : s.logs seq with
  | none => exact .inl ⟨_, rfl⟩
  | some log =>
    simp only
    split_ifs
    · exact .inl ⟨_, rfl⟩
    · refine .inr ⟨log, rfl, ?_⟩
      cases torn with
      | some n => exact .inl ⟨n, rfl, rfl⟩
      | none => exact .inr ⟨rfl, rfl⟩

theorem appendEntry_grows (encode : WalEntry → Bytes) (s : ByteStore) (seq : Nat) (entry : WalEntry)
    (torn : Option Nat) : Grows s (s.appendEntry encode seq entry torn).2 := by
  obtain ⟨e, h⟩ | ⟨log, hlog, ⟨n, -, h⟩ | ⟨-, h⟩⟩ := appendEntry_cases encode s seq entry torn
  · rw [h]
    exact .refl s
  all_goals
    rw [h]
    apply grows_setLog
    rw [readLog_of_log hlog]
    exact List.prefix_append _ _

theorem finalizeWriter_grows (s : ByteStore) (seq : Nat) (fails : Bool) :
    Grows s (s.finalizeWriter seq fails).2 := by
  unfold ByteStore.finalizeWriter
  split
  · split_ifs <;> exact .refl s
  · split
    · exact .refl s
    · rename_i log hlog
      split_ifs
      · exact .refl s
      · exact .refl s
      · apply grows_setLog
        exact readLog_of_log hlog ▸ List.prefix_rfl

/-- A log that is opened is as it was, or a bucket holds a new one. -/
theorem openWriter_cases (s : ByteStore) (seq : Nat) :
    Grows s (s.openWriter seq).2 ∨ s.kind = .gcs ∧ (s.openWriter seq).2 = s.setLog seq ⟨[], false⟩ := by
  unfold ByteStore.openWriter
  split
  · split_ifs <;> exact .inl (.refl s)
  · rename_i hnot
    cases hkind : s.kind with
    | gcs => exact .inr ⟨rfl, rfl⟩
    | localFs =>
      left
      apply grows_setLog
      have hnone : s.logs seq = none := by
        rw [Option.eq_none_iff_forall_ne_some]
        intro log hlog
        exact hnot log hkind hlog
      unfold ByteStore.readLog
      rw [hnone]
      exact List.prefix_rfl

/-! ## What is acknowledged stays readable -/

theorem sublist_of_grows (h : Grows s s') {seq : Nat} {entries : List WalEntry}
    (hs : entries.Sublist (WalEntry.decodeAllFramed decode (s.readLog seq)).1) :
    entries.Sublist (WalEntry.decodeAllFramed decode (s'.readLog seq)).1 := by
  obtain ⟨more, hmore⟩ := h seq
  rw [← hmore]
  exact hs.trans (Framing.Reader.scan_prefix _ _).sublist

theorem Recoverable.grows (h : w.Recoverable decode) (hgrows : Grows w.store w'.store)
    (hacked : w'.acked = w.acked) : w'.Recoverable decode := by
  refine ⟨hacked ▸ h.1, fun seq => ?_⟩
  unfold ackedIn
  rw [hacked]
  exact sublist_of_grows hgrows (h.2 seq)

theorem ackedIn_eq_nil {seq : Nat} (h : ∀ a ∈ w.acked, a.1 ≠ some seq) : w.ackedIn seq = [] := by
  unfold ackedIn
  rw [List.filterMap_eq_nil_iff]
  intro a ha
  exact if_neg (h a ha)

/-- A log that is opened anew holds nothing that was acknowledged. -/
theorem Recoverable.openWriter (h : w.Recoverable decode)
    (hclear : w.store.kind = .gcs → ∀ a ∈ w.acked, a.1 ≠ some w.manager.activeSeq) :
    ({ w with store := (w.store.openWriter w.manager.activeSeq).2 } : ByteWal).Recoverable decode := by
  rcases openWriter_cases w.store w.manager.activeSeq with hgrows | ⟨hkind, heq⟩
  · exact h.grows hgrows rfl
  · refine ⟨h.1, fun seq => ?_⟩
    simp only [heq, readLog_setLog]
    split_ifs with hseq
    · have hnil := ackedIn_eq_nil (hclear hkind)
      rw [← hseq] at hnil
      unfold ackedIn at hnil ⊢
      rw [hnil]
      exact List.nil_sublist _
    · exact h.2 seq

theorem Recoverable.startActiveWal (h : w.Recoverable decode) {now : Nat}
    {repoUrl baseCommitOid author commitMessage : Str} {openFails : Bool} {torn : Option Nat}
    (hsafe : w.Safe encode decode
      (.startActiveWal now repoUrl baseCommitOid author commitMessage openFails torn)) :
    (w.startActiveWal encode now repoUrl baseCommitOid author commitMessage openFails torn).Recoverable
      decode := by
  cases openFails with
  | true => exact h.grows (.refl _) rfl
  | false =>
    have hopen := h.openWriter fun hkind => (hsafe hkind rfl).1
    unfold ByteWal.startActiveWal
    simp only [Bool.false_eq_true, if_false]
    generalize w.store.openWriter w.manager.activeSeq = opened at hopen
    obtain ⟨res, s⟩ := opened
    cases res with
    | error e => exact hopen
    | ok u =>
      simp only
      have hgrows := appendEntry_grows encode s w.manager.activeSeq
        ⟨w.manager.entrySeq, now, some (.header ⟨repoUrl, baseCommitOid, author, commitMessage, now / 10 ^ 9,
          w.manager.activeSeq⟩)⟩ torn
      generalize s.appendEntry encode _ _ torn = appended at hgrows
      obtain ⟨res, s'⟩ := appended
      cases res with
      | error e => exact hopen.grows hgrows rfl
      | ok u => exact hopen.grows hgrows rfl

theorem ackedIn_append (w : ByteWal) (m : WalManager) (s : ByteStore) (seq i : Nat) (entry : WalEntry) :
    (ByteWal.mk m s (w.acked ++ [(some seq, entry)])).ackedIn i =
      if i = seq then w.ackedIn i ++ [entry] else w.ackedIn i := by
  unfold ackedIn
  rw [List.filterMap_append]
  split_ifs with hi
  · subst hi
    simp
  · simp [Ne.symm hi]

theorem Recoverable.logMutation (h : w.Recoverable decode) {now : Nat} {payload : WalPayload}
    {torn : Option Nat} (hsafe : w.Safe encode decode (.logMutation now payload torn))
    (hprost : w.Decodes encode decode (.logMutation now payload torn)) :
    (w.logMutation encode now payload torn).Recoverable decode := by
  obtain ⟨seq, hwriter, hclean⟩ := hsafe
  unfold ByteWal.logMutation
  simp only [hwriter]
  obtain ⟨e, heq⟩ | ⟨log, hlog, ⟨n, -, heq⟩ | ⟨htorn, heq⟩⟩ :=
    appendEntry_cases encode w.store seq (w.entryOf now payload) torn
  · rw [heq]
    exact h.grows (.refl _) rfl
  · have hgrows := appendEntry_grows encode w.store seq (w.entryOf now payload) torn
    rw [heq] at hgrows ⊢
    exact h.grows hgrows rfl
  · have hgrows := appendEntry_grows encode w.store seq (w.entryOf now payload) torn
    obtain ⟨hend, hlen⟩ := hclean htorn
    rw [heq] at hgrows ⊢
    refine ⟨fun a ha => ?_, fun i => ?_⟩
    · rcases List.mem_append.mp ha with ha | ha
      · exact h.1 a ha
      · rw [List.mem_singleton.mp ha]
        exact Option.some_ne_none seq
    · rw [ackedIn_append]
      split_ifs with hi
      · subst hi
        have hread := Framing.Reader.scan_append (r := WalEntry.frameReader decode) (w.store.readLog i)
          ((w.entryOf now payload).encodeFramed encode) hend
        have hframe := Framing.Reader.scan_cons (s := []) (WalEntry.encodeFramed_frames hprost hlen)
        rw [List.append_nil] at hframe
        simp only [readLog_setLog, if_true]
        rw [← readLog_of_log hlog, WalEntry.decodeAllFramed, hread, hframe]
        exact (h.2 i).append (List.cons_sublist_cons.mpr (List.nil_sublist _))
      · exact sublist_of_grows hgrows (h.2 i)

theorem Recoverable.step (h : w.Recoverable decode) {call : WalCall} (hsafe : w.Safe encode decode call)
    (hprost : w.Decodes encode decode call) (hstep : w.step encode call = some w') :
    w'.Recoverable decode := by
  cases call with
  | startActiveWal now repoUrl baseCommitOid author commitMessage openFails torn =>
    simp only [ByteWal.step, Option.some.injEq] at hstep
    exact hstep ▸ h.startActiveWal hsafe
  | logMutation now payload torn =>
    simp only [ByteWal.step, Option.some.injEq] at hstep
    exact hstep ▸ h.logMutation hsafe hprost
  | finalizeActiveWal fails =>
    simp only [ByteWal.step, Option.some.injEq] at hstep
    subst hstep
    unfold ByteWal.finalizeActiveWal
    split
    · exact h
    · exact h.grows (finalizeWriter_grows _ _ _) rfl
  | advanceSeq =>
    simp only [ByteWal.step, Option.some.injEq] at hstep
    exact hstep ▸ h.grows (.refl _) rfl

/-- In a run whose calls are safe every acknowledged entry is read back from the log it went to. -/
theorem acked_recoverable (encode : WalEntry → Bytes) (decode : Bytes → Option WalEntry) (store : ByteStore)
    (activeSeq : Nat) (calls : List WalCall) (w : ByteWal)
    (hprost : Run.Meets (ByteWal.step encode) (ByteWal.Decodes encode decode) (.new store activeSeq) calls)
    (hsafe : Run.Meets (ByteWal.step encode) (ByteWal.Safe encode decode) (.new store activeSeq) calls)
    (hrun : Run.run (ByteWal.step encode) (.new store activeSeq) calls = some w) : w.Recoverable decode := by
  refine Run.invariant ?_ (Run.meets_and hprost hsafe) hrun ?_
  · rintro w call w' h ⟨hp, hs⟩ hstep
    exact h.step hs hp hstep
  · refine ⟨fun a ha => ?_, fun seq => List.nil_sublist _⟩
    simp [ByteWal.new] at ha

/-! ## The store of entries

As long as nothing is appended behind a partial frame, a `WalStore` holds what its logs are read as.
-/

variable {t : WalStore}

def Reads (decode : Bytes → Option WalEntry) (s : ByteStore) (t : WalStore) : Prop :=
  t.kind = s.kind ∧ ∀ seq, t.logs.lookup seq =
    (s.logs seq).map fun log => LogFile.mk (WalEntry.decodeAllFramed decode log.bytes).1 log.sealed

/-- A failure that leaves less than a frame leaves nothing that is read. -/
def appendFault (encode : WalEntry → Bytes) (entry : WalEntry) (torn : Option Nat) : Option AppendFault :=
  torn.map fun n => if n < (entry.encodeFramed encode).length then .append else .flush

theorem Reads.setLog (h : Reads decode s t) {seq : Nat} {log : ByteLog} {file : LogFile}
    (hfile : file = ⟨(WalEntry.decodeAllFramed decode log.bytes).1, log.sealed⟩) :
    Reads decode (s.setLog seq log) (t.setLog seq file) := by
  refine ⟨h.1, fun i => ?_⟩
  unfold ByteStore.setLog WalStore.setLog
  simp only [Function.update_apply]
  by_cases hi : i = seq
  · subst hi
    rw [if_pos rfl, AList.lookup_insert, hfile]
    rfl
  · rw [if_neg hi, AList.lookup_insert_ne hi]
    exact h.2 i

/-- A log that did not change stays as it is read. -/
theorem Reads.setLog_left (h : Reads decode s t) {seq : Nat} {log log' : ByteLog} (hlog : s.logs seq = some log)
    (hread : (WalEntry.decodeAllFramed decode log'.bytes).1 = (WalEntry.decodeAllFramed decode log.bytes).1)
    (hsealed : log'.sealed = log.sealed) : Reads decode (s.setLog seq log') t := by
  refine ⟨h.1, fun i => ?_⟩
  unfold ByteStore.setLog
  simp only [Function.update_apply]
  split_ifs with hi
  · rw [hi, h.2 seq, hlog, Option.map_some, Option.map_some, hread, hsealed]
  · exact h.2 i

theorem Reads.openWriter (h : Reads decode s t) (seq : Nat) :
    (t.openWriter seq).1 = (s.openWriter seq).1 ∧ Reads decode (s.openWriter seq).2 (t.openWriter seq).2 := by
  have hlook := h.2 seq
  unfold ByteStore.openWriter WalStore.openWriter
  rw [h.1, hlook]
  cases s.kind with
  | gcs => exact ⟨rfl, h.setLog rfl⟩
  | localFs =>
    cases s.logs seq with
    | none => exact ⟨rfl, h.setLog rfl⟩
    | some log =>
      simp only [Option.map_some]
      split_ifs
      · exact ⟨rfl, h⟩
      · exact ⟨rfl, h⟩

theorem Reads.finalizeWriter (h : Reads decode s t) (seq : Nat) (fails : Bool) :
    (t.finalizeWriter seq fails).1 = (s.finalizeWriter seq fails).1 ∧
      Reads decode (s.finalizeWriter seq fails).2 (t.finalizeWriter seq fails).2 := by
  have hlook := h.2 seq
  unfold ByteStore.finalizeWriter WalStore.finalizeWriter
  rw [h.1]
  cases s.kind with
  | localFs =>
    simp only
    split_ifs <;> exact ⟨rfl, h⟩
  | gcs =>
    simp only
    rw [hlook]
    cases hlog : s.logs seq with
    | none => exact ⟨rfl, h⟩
    | some log =>
      simp only [Option.map_some]
      split_ifs
      · exact ⟨rfl, h⟩
      · exact ⟨rfl, h⟩
      · refine ⟨rfl, ?_⟩
        unfold WalStore.sealLog
        rw [hlook, hlog]
        exact h.setLog rfl

theorem Reads.appendEntry (h : Reads decode s t) {seq : Nat} {entry : WalEntry} (hend : ReadsToEnd decode s seq)
    (hprost : decode (encode entry) = some entry) (hlen : (encode entry).length < 2 ^ 32) (torn : Option Nat) :
    (t.appendEntry seq entry (appendFault encode entry torn)).1 = (s.appendEntry encode seq entry torn).1 ∧
      Reads decode (s.appendEntry encode seq entry torn).2
        (t.appendEntry seq entry (appendFault encode entry torn)).2 := by
  have hlook := h.2 seq
  unfold ByteStore.appendEntry WalStore.appendEntry
  rw [h.1, hlook]
  cases hlog : s.logs seq with
  | none => exact ⟨rfl, h⟩
  | some log =>
    unfold ReadsToEnd at hend
    rw [readLog_of_log hlog] at hend
    have hframe := Framing.Reader.scan_frame hend (WalEntry.encodeFramed_frames hprost hlen)
    simp only [Option.map_some]
    split_ifs
    · exact ⟨rfl, h⟩
    · cases torn with
      | none =>
        have hwhole := hframe (entry.encodeFramed encode).length
        rw [List.take_length, if_neg (Nat.lt_irrefl _)] at hwhole
        exact ⟨rfl, h.setLog (congrArg (fun r => LogFile.mk r.1 log.sealed) hwhole.symm)⟩
      | some n =>
        have hpart := hframe n
        unfold appendFault
        simp only [Option.map_some]
        split_ifs with hn
        · rw [if_pos hn] at hpart
          exact ⟨rfl, h.setLog_left hlog (congrArg Prod.fst hpart) rfl⟩
        · rw [if_neg hn] at hpart
          exact ⟨rfl, h.setLog (congrArg (fun r => LogFile.mk r.1 log.sealed) hpart.symm)⟩

/-! ### Two runs -/

/-- `prost` on entries of a small sequence number and no time, for a header that is empty but for its own
small number and for a removal of the empty path. -/
def encodeSmall (e : WalEntry) : Bytes :=
  (if e.seq = 0 then [] else [8, UInt8.ofNat e.seq]) ++
    match e.payload with
    | some (.header h) => if h.walSeq = 0 then [26, 0] else [26, 2, 48, UInt8.ofNat h.walSeq]
    | some (.remove _) => [66, 0]
    | _ => []

def decodePayload : Bytes → Option (Option WalPayload)
  | [] => some none
  | [26, 0] => some (some (.header ⟨[], [], [], [], 0, 0⟩))
  | [26, 2, 48, n] => some (some (.header ⟨[], [], [], [], 0, n.toNat⟩))
  | [66, 0] => some (some (.remove []))
  | _ => none

def decodeSmall : Bytes → Option WalEntry
  | 8 :: n :: rest => (decodePayload rest).map fun payload => ⟨n.toNat, 0, payload⟩
  | data => (decodePayload data).map fun payload => ⟨0, 0, payload⟩

/-- The part of `Safe` that can be computed, for the local directory. -/
def safeLocal (w : ByteWal) : WalCall → Bool
  | .startActiveWal _ _ _ _ _ _ _ => w.store.kind = .localFs
  | .logMutation now payload _ =>
    match w.manager.activeWriter with
    | none => false
    | some seq =>
      decide ((WalEntry.decodeAllFramed decodeSmall (w.store.readLog seq)).2 = (w.store.readLog seq).length) &&
        decide ((encodeSmall (w.entryOf now payload)).length < 2 ^ 32)
  | _ => true

theorem safe_of_local {call : WalCall} (h : safeLocal w call = true) : w.Safe encodeSmall decodeSmall call := by
  cases call with
  | startActiveWal now repoUrl baseCommitOid author commitMessage openFails torn =>
    intro hgcs
    rw [of_decide_eq_true h] at hgcs
    cases hgcs
  | logMutation now payload torn =>
    unfold safeLocal at h
    cases hwriter : w.manager.activeWriter with
    | none => simp [hwriter] at h
    | some seq =>
      simp only [hwriter, Bool.and_eq_true, decide_eq_true_eq] at h
      exact ⟨seq, hwriter, fun _ => h⟩
  | finalizeActiveWal fails => trivial
  | advanceSeq => trivial

instance (w : ByteWal) (call : WalCall) : Decidable (w.Decodes encodeSmall decodeSmall call) :=
  match call with
  | .logMutation _ _ _ => inferInstanceAs (Decidable (_ = _))
  | .startActiveWal _ _ _ _ _ _ _ => .isTrue trivial
  | .finalizeActiveWal _ => .isTrue trivial
  | .advanceSeq => .isTrue trivial

/-- The second log gets a partial frame at its end. -/
def smallRun : List WalCall :=
  [.startActiveWal 0 [] [] [] [] false none, .logMutation 0 (.remove []) none, .finalizeActiveWal false,
    .advanceSeq, .startActiveWal 0 [] [] [] [] false none, .logMutation 0 (.remove []) none,
    .logMutation 0 (.remove []) (some 5)]

def emptyLogs : ByteStore := ⟨.localFs, fun _ => none⟩

theorem smallRun_decodes :
    Run.check (ByteWal.step encodeSmall) (fun w call => decide (w.Decodes encodeSmall decodeSmall call))
      (.new emptyLogs 0) smallRun = true := by decide +kernel

theorem smallRun_safe :
    Run.check (ByteWal.step encodeSmall) safeLocal (.new emptyLogs 0) smallRun = true := by decide +kernel

theorem acked_recoverable_small :
    ((Run.run (ByteWal.step encodeSmall) (.new emptyLogs 0) smallRun).any fun w => w.acked.length = 2) = true ∧
    ∀ w, Run.run (ByteWal.step encodeSmall) (.new emptyLogs 0) smallRun = some w → w.Recoverable decodeSmall :=
  ⟨by decide +kernel, fun w hrun => acked_recoverable encodeSmall decodeSmall emptyLogs 0 smallRun w
    (Run.meets_of_check (fun _ _ h => of_decide_eq_true h) smallRun_decodes)
    (Run.meets_of_check (fun _ _ h => safe_of_local h) smallRun_safe) hrun⟩

/-- One byte of the first frame stays in the log. -/
def tornRun : List WalCall :=
  [.startActiveWal 0 [] [] [] [] false none, .logMutation 0 (.remove []) (some 1),
    .logMutation 0 (.remove []) none]

theorem tornRun_decodes :
    Run.check (ByteWal.step encodeSmall) (fun w call => decide (w.Decodes encodeSmall decodeSmall call))
      (.new emptyLogs 0) tornRun = true := by decide +kernel

/-- The second frame is read as an empty message and as the beginning of a long one. -/
theorem acked_behind_torn :
    ¬ ∀ (encode : WalEntry → Bytes) (decode : Bytes → Option WalEntry) (store : ByteStore) (activeSeq : Nat)
      (calls : List WalCall) (w : ByteWal),
      Run.Meets (ByteWal.step encode) (ByteWal.Decodes encode decode) (.new store activeSeq) calls →
      Run.run (ByteWal.step encode) (.new store activeSeq) calls = some w → w.Recoverable decode := by
  intro h
  have hlost := h encodeSmall decodeSmall emptyLogs 0 tornRun _
    (Run.meets_of_check (fun _ _ hd => of_decide_eq_true hd) tornRun_decodes) rfl
  exact absurd (hlost.2 0) (by decide +kernel)

end ByteWal

end GitNfs
