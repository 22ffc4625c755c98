import GitNfs.Wal.ByteLog
import GitNfs.Wal.Effects

/-! # Logs that are closed

A recovery marks a log done once what it read of it is replayed. A frame that is not all there and a frame that
does not decode stop the reading alike, and how far it came is only noted in a message.
-/

namespace GitNfs

/-- A length and as many bytes. -/
def IsFrame (frame : Bytes) : Prop := 4 ≤ frame.length ∧ frame.length = 4 + fromBeBytes (frame.take 4)

/-- A proper prefix of one frame, as a write that was torn leaves it. No bytes at all are one. -/
def TornFrame (rest : Bytes) : Prop := ∃ more, more ≠ [] ∧ IsFrame (rest ++ more)

namespace WalEntry

/-- The message of the first frame of a log, if the frame is all there. -/
def nextMessage (data : Bytes) : Option (Bytes × Nat) :=
  if data.length < 4 then none
  else
    let msgLen := fromBeBytes (data.take 4)
    if data.length < 4 + msgLen then none else some ((data.drop 4).take msgLen, 4 + msgLen)

theorem nextMessage_some {data msg : Bytes} {n : Nat} (h : nextMessage data = some (msg, n)) :
    4 ≤ data.length ∧ n = 4 + fromBeBytes (data.take 4) ∧ n ≤ data.length ∧
      msg = (data.drop 4).take (fromBeBytes (data.take 4)) := by
  unfold nextMessage at h
  simp only at h
  split_ifs at h with hshort hcut
  simp only [Option.some.injEq, Prod.mk.injEq] at h
  obtain ⟨rfl, rfl⟩ := h
  exact ⟨by omega, rfl, by omega, rfl⟩

theorem nextMessage_size (data msg : Bytes) (n : Nat) (h : nextMessage data = some (msg, n)) :
    0 < n ∧ n ≤ data.length := by
  obtain ⟨-, hn, hle, -⟩ := nextMessage_some h
  omega

theorem nextMessage_append (data more msg : Bytes) (n : Nat) (h : nextMessage data = some (msg, n)) :
    nextMessage (data ++ more) = some (msg, n) := by
  obtain ⟨hshort, hn, hle, hmsg⟩ := nextMessage_some h
  have htake : (data ++ more).take 4 = data.take 4 := List.take_append_of_le_length hshort
  have hbody : ((data ++ more).drop 4).take (fromBeBytes (data.take 4)) =
      (data.drop 4).take (fromBeBytes (data.take 4)) := by
    rw [List.drop_append_of_le_length hshort,
      List.take_append_of_le_length (by rw [List.length_drop]; omega)]
  unfold nextMessage
  simp only [htake, hbody, List.length_append]
  rw [if_neg (by omega), if_neg (by omega), hn, hmsg]

def messageReader : Framing.Reader Bytes UInt8 := ⟨nextMessage, nextMessage_size, nextMessage_append⟩

/-- The messages of the complete frames of a log, whether they decode or not. -/
def messages (data : Bytes) : List Bytes := (messageReader.scan data).1

theorem frameReader_through (decode : Bytes → Option WalEntry) :
    (frameReader decode).Through messageReader decode := by
  intro data
  simp only [frameReader, messageReader]
  unfold nextFrame nextMessage
  split_ifs with hshort
  · rfl
  · simp only
    split_ifs <;> rfl

/-- Bytes are the beginning of one frame when they hold no frame to its end. -/
theorem tornFrame_iff (rest : Bytes) : TornFrame rest ↔ nextMessage rest = none := by
  unfold nextMessage
  simp only
  constructor
  · rintro ⟨more, hmore, -, hlen⟩
    have hpos := List.length_pos_iff.mpr hmore
    split_ifs with hshort hcut
    · rfl
    · rfl
    · rw [List.take_append_of_le_length (by omega), List.length_append] at hlen
      omega
  · intro hnone
    split_ifs at hnone with hshort hcut
    · -- the length is filled up with zeros, and as many bytes as it then says are put behind it
      have hfour : (rest ++ List.replicate (4 - rest.length) 0).length = 4 := by
        rw [List.length_append, List.length_replicate]
        omega
      refine ⟨List.replicate (4 - rest.length) 0 ++
        List.replicate (fromBeBytes (rest ++ List.replicate (4 - rest.length) 0)) 0, ?_, ?_, ?_⟩
      · intro hnil
        have hlen := congrArg List.length hnil
        rw [List.length_append, List.length_replicate, List.length_nil] at hlen
        omega
      · rw [← List.append_assoc, List.length_append]
        omega
      · rw [← List.append_assoc, List.length_append, hfour, List.length_replicate, List.take_left' hfour]
    · have hlen : (rest ++ List.replicate (4 + fromBeBytes (rest.take 4) - rest.length) (0 : UInt8)).length =
          4 + fromBeBytes (rest.take 4) := by
        rw [List.length_append, List.length_replicate]
        omega
      refine ⟨List.replicate (4 + fromBeBytes (rest.take 4) - rest.length) 0, ?_, ?_, ?_⟩
      · intro hnil
        have := congrArg List.length hnil
        rw [List.length_replicate, List.length_nil] at this
        omega
      · omega
      · rw [hlen, List.take_append_of_le_length (by omega)]

end WalEntry

/-- All that a log holds was read but for a torn frame at its end, and the entries are those of all complete
frames. -/
structure ReadWhole (decode : Bytes → Option WalEntry) (log : Bytes) (entries : List WalEntry) : Prop where
  rest : TornFrame (log.drop (WalEntry.decodeAllFramed decode log).2)
  entries : entries = (WalEntry.messages log).filterMap decode

theorem readWhole_iff (decode : Bytes → Option WalEntry) (log : Bytes) :
    ReadWhole decode log (WalEntry.decodeAllFramed decode log).1 ↔
      ∀ msg ∈ WalEntry.messages log, (decode msg).isSome = true := by
  have hthrough := WalEntry.frameReader_through decode
  have hstops := Framing.Reader.through_stops_iff hthrough log
  constructor
  · intro h
    exact hstops.mp ((WalEntry.tornFrame_iff _).mp h.rest)
  · intro hall
    exact ⟨(WalEntry.tornFrame_iff _).mpr (hstops.mpr hall), Framing.Reader.through_scan hthrough log hall⟩

/-! ## What a recovery replays of a log -/

/-- The log is replayed on what the logs before it left. -/
theorem replayLogs_split {g : GitEngine} {s : WalStore} {faults : RecoverFaults} {before after : List Nat}
    {seq : Nat} {info info' : CommitInfo} {r r' : Replay}
    (h : replayLogs g s faults (before ++ seq :: after) info r = .ok (info', r')) :
    ∃ info₁ r₁ r₂, replayLogs g s faults before info r = .ok (info₁, r₁) ∧
      replayWalEntries g (s.logEntries seq) r₁ = .ok r₂ := by
  induction before generalizing info r with
  | nil =>
    rw [List.nil_append, replayLogs] at h
    split_ifs at h
    cases hentries : replayWalEntries g (s.logEntries seq) r with
    | error e => simp [hentries] at h
    | ok r₂ => exact ⟨info, r, r₂, rfl, hentries⟩
  | cons first before ih =>
    rw [List.cons_append, replayLogs] at h
    split_ifs at h with hread
    cases hentries : replayWalEntries g (s.logEntries first) r with
    | error e => simp [hentries] at h
    | ok r₁ =>
      simp only [hentries] at h
      obtain ⟨info₁, r₂, r₃, hbefore, hseq⟩ := ih h
      refine ⟨info₁, r₂, r₃, ?_, hseq⟩
      rw [replayLogs, if_neg hread, hentries]
      exact hbefore

/-- A recovery that marks a log done replayed its entries. It read the log whole exactly when every complete frame
of the log decodes. -/
theorem closed_log_read_iff (decode : Bytes → Option WalEntry) (zlib : Bytes → Bytes) (g : GitEngine)
    (s : ByteStore) (d d' : Durable) (hreads : ByteWal.Reads decode s d.wal) (cfg : RecoverConfig)
    (faults : RecoverFaults) (res : Except Error (Option RecoveredPackResult))
    (h : recoverAndReplayUncommitted zlib g d cfg faults = some (res, d')) (seq : Nat) (log : ByteLog)
    (hlog : s.logs seq = some log) (hopen : d.wal.done seq = none) (hclosed : d'.wal.done seq ≠ none) :
    (∃ before after info r r', uncommittedSeqs d.wal faults = before ++ seq :: after ∧
      replayLogs g d.wal faults before cfg.info (Replay.new cfg.rootOid) = .ok (info, r) ∧
      replayWalEntries g (d.wal.logEntries seq) r = .ok r') ∧
    (ReadWhole decode log.bytes (d.wal.logEntries seq) ↔
      ∀ msg ∈ WalEntry.messages log.bytes, (decode msg).isSome = true) := by
  obtain ⟨-, -, -, hkept, hbuilt⟩ := recover_effect h
  constructor
  · have hmem : seq ∈ uncommittedSeqs d.wal faults := by
      by_contra hnot
      rw [hkept seq hnot] at hclosed
      exact hclosed hopen
    obtain ⟨before, after, hseqs⟩ := List.append_of_mem hmem
    rcases hbuilt with hsame | ⟨built, hbuild, -⟩
    · rw [hsame] at hclosed
      exact absurd hopen hclosed
    · unfold buildRecovery at hbuild
      split_ifs at hbuild
      · simp at hbuild
      · cases hreplay : replayLogs g d.wal faults (uncommittedSeqs d.wal faults) cfg.info
            (Replay.new cfg.rootOid) with
        | error e => simp [hreplay] at hbuild
        | ok out =>
          obtain ⟨info', r'⟩ := out
          rw [hseqs] at hreplay
          obtain ⟨info, r, r₂, hbefore, hentries⟩ := replayLogs_split hreplay
          exact ⟨before, after, info, r, r₂, hseqs, hbefore, hentries⟩
  · have hentries : d.wal.logEntries seq = (WalEntry.decodeAllFramed decode log.bytes).1 := by
      unfold WalStore.logEntries
      rw [hreads.2 seq, hlog]
      rfl
    rw [hentries]
    exact readWhole_iff decode log.bytes

/-! ## One log -/

/-- A local directory with one log of these bytes. -/
def oneLog (bytes : Bytes) : ByteStore := ⟨.localFs, fun seq => if seq = 0 then some ⟨bytes, false⟩ else none⟩

def oneDurable (entries : List WalEntry) : Durable :=
  ⟨(WalStore.empty .localFs).setLog 0 ⟨entries, false⟩, ⟨∅, []⟩⟩

theorem oneLog_reads {decode : Bytes → Option WalEntry} {bytes : Bytes} {entries : List WalEntry}
    (h : (WalEntry.decodeAllFramed decode bytes).1 = entries) :
    ByteWal.Reads decode (oneLog bytes) (oneDurable entries).wal := by
  refine ⟨rfl, fun seq => ?_⟩
  unfold oneDurable oneLog WalStore.setLog
  simp only
  split_ifs with hseq
  · rw [hseq, AList.lookup_insert, Option.map_some, h]
  · rw [AList.lookup_insert_ne hseq]
    rfl

/-- Nothing to replay: the log is marked with an empty commit. -/
theorem oneLog_closed (entries : List WalEntry) (h : entries = [] ∨ entries = [⟨0, 0, none⟩]) :
    ∃ d', recoverAndReplayUncommitted zlibStored emptyEngine (oneDurable entries) headerConfig .none =
      some (.ok none, d') ∧ d'.wal.done 0 ≠ none := by
  have hall : ∀ entries ∈ [[], [(⟨0, 0, none⟩ : WalEntry)]],
      ((recoverAndReplayUncommitted zlibStored emptyEngine (oneDurable entries) headerConfig .none).any
        fun p => p.1.toOption == some none && (p.2.wal.done 0).isSome) = true := by decide +kernel
  have hone := hall entries (by simpa using h)
  rw [Option.any_eq_true] at hone
  obtain ⟨⟨res, d'⟩, hrec, hout⟩ := hone
  rw [Bool.and_eq_true] at hout
  refine ⟨d', ?_, Option.isSome_iff_ne_none.mp hout.2⟩
  cases res with
  | error e => simp [Except.toOption] at hout
  | ok built =>
    simp only [Except.toOption, beq_iff_eq, Option.some.injEq] at hout
    rw [hrec, hout.1]

/-- An empty message and a byte of the next frame. -/
theorem closed_log_read_torn :
    ReadWhole ByteWal.decodeSmall [0, 0, 0, 0, 0] ((oneDurable [⟨0, 0, none⟩]).wal.logEntries 0) := by
  obtain ⟨d', hrec, hclosed⟩ := oneLog_closed [⟨0, 0, none⟩] (.inr rfl)
  refine (closed_log_read_iff ByteWal.decodeSmall zlibStored emptyEngine (oneLog [0, 0, 0, 0, 0])
    (oneDurable [⟨0, 0, none⟩]) d' (oneLog_reads (by decide)) headerConfig .none _ hrec 0 _ rfl rfl hclosed).2.mpr ?_
  decide

/-- A record that does not decode, and a removal behind it. -/
def garbled : Bytes := [0, 0, 0, 1, 255] ++ [0, 0, 0, 2, 66, 0]

theorem closed_behind_garbled :
    ∃ d', ByteWal.Reads ByteWal.decodeSmall (oneLog garbled) (oneDurable []).wal ∧
      recoverAndReplayUncommitted zlibStored emptyEngine (oneDurable []) headerConfig .none =
        some (.ok none, d') ∧ (oneDurable []).wal.done 0 = none ∧ d'.wal.done 0 ≠ none ∧
      WalEntry.messages garbled = [[255], [66, 0]] ∧
      ByteWal.decodeSmall [66, 0] = some ⟨0, 0, some (.remove [])⟩ ∧
      ¬ ReadWhole ByteWal.decodeSmall garbled ((oneDurable []).wal.logEntries 0) := by
  obtain ⟨d', hrec, hclosed⟩ := oneLog_closed [] (.inl rfl)
  refine ⟨d', oneLog_reads (by decide), hrec, rfl, hclosed, by decide, by decide, fun hread => ?_⟩
  exact absurd hread.entries (by decide)

end GitNfs
