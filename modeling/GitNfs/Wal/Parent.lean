import GitNfs.Wal.Manager

/-! # The parent of a recovered commit

The tree that the logs are replayed on is an argument of the recovery. The parent line is the default
base, unless a header names another one.
-/

namespace GitNfs

/-- The first line of a commit that says `parent`, without the word. -/
def parentLine (text : Str) : Option Str :=
  (text.splitOn '\n').findSome? fun line =>
    if "parent ".toList.isPrefixOf line then some (line.drop 7) else none

def firstLine (s : Str) : Str := s.takeWhile (· ≠ '\n')

/-- The commit that a recovered commit names as its parent. -/
def RecoveredPackResult.parent (res : RecoveredPackResult) : Option Str :=
  (res.objects.find? fun o => o.oid = res.commitOid).bind fun o => parentLine (fromUtf8Lossy o.data)

/-- The base of the last header that has one. -/
def lastHeaderBase (entries : List WalEntry) (default : Str) : Str :=
  entries.foldl
    (fun base entry =>
      match entry.payload with
      | some (.header h) => if h.baseCommitOid ≠ [] then h.baseCommitOid else base
      | _ => base)
    default

theorem foldl_readHeader_base (entries : List WalEntry) (info : CommitInfo) :
    (entries.foldl CommitInfo.readHeader info).baseCommitOid = lastHeaderBase entries info.baseCommitOid := by
  induction entries generalizing info with
  | nil => rfl
  | cons entry entries ih =>
    rw [List.foldl_cons, ih, lastHeaderBase, lastHeaderBase, List.foldl_cons]
    congr 1
    rcases entry with ⟨_, _, _ | payload⟩
    · rfl
    · cases payload <;> rfl

theorem replayLogs_info {g : GitEngine} {s : WalStore} {faults : RecoverFaults} {seqs : List Nat}
    {info info' : CommitInfo} {r r' : Replay} (h : replayLogs g s faults seqs info r = .ok (info', r')) :
    info' = (seqs.flatMap s.logEntries).foldl CommitInfo.readHeader info := by
  induction seqs generalizing info r with
  | nil =>
    simp only [replayLogs, Except.ok.injEq, Prod.mk.injEq] at h
    exact h.1.symm
  | cons seq seqs ih =>
    rw [replayLogs] at h
    split_ifs at h
    split at h
    · simp at h
    · rw [ih h, List.flatMap_cons, List.foldl_append]

theorem append_newline (s t : Str) : ∃ rest, s ++ '\n' :: t = firstLine s ++ '\n' :: rest := by
  induction s with
  | nil => exact ⟨t, rfl⟩
  | cons c cs ih =>
    by_cases hc : c = '\n'
    · subst hc
      exact ⟨cs ++ '\n' :: t, by simp [firstLine]⟩
    · obtain ⟨rest, hrest⟩ := ih
      exact ⟨rest, by simp only [firstLine] at hrest; simp [firstLine, hc, hrest]⟩

theorem newline_notMem_firstLine (s : Str) : '\n' ∉ firstLine s := by
  intro h
  simpa using List.mem_takeWhile_imp h

/-- The parent of a commit is the first line of what it was given as its base. -/
theorem parentLine_commitContent (treeOid base author : Str) (timestamp : Nat) (message : Str)
    (htree : '\n' ∉ treeOid) :
    parentLine (commitContent treeOid base author timestamp message) = some (firstLine base) := by
  have hlines : ∃ tail, commitContent treeOid base author timestamp message =
      ("tree ".toList ++ treeOid ++ ['\n']) ++ (("parent ".toList ++ base ++ ['\n']) ++ tail) := by
    unfold commitContent
    exact ⟨_, List.flatMap_cons.trans (congrArg _ List.flatMap_cons)⟩
  obtain ⟨tail, htail⟩ := hlines
  simp only [List.append_assoc, List.singleton_append] at htail
  rw [← List.append_assoc] at htail
  obtain ⟨rest, hrest⟩ := append_newline base tail
  have hfirst : '\n' ∉ "tree ".toList ++ treeOid := by
    simp only [List.mem_append, not_or]
    exact ⟨by decide, htree⟩
  have hsecond : '\n' ∉ "parent ".toList ++ firstLine base := by
    simp only [List.mem_append, not_or]
    exact ⟨by decide, newline_notMem_firstLine base⟩
  rw [parentLine, htail, hrest, List.splitOn_append_cons_self_of_not_mem hfirst, ← List.append_assoc,
    List.splitOn_append_cons_self_of_not_mem hsecond]
  have htreeWord : "tree ".toList = ['t', 'r', 'e', 'e', ' '] := by decide
  have hword : "parent ".toList = ['p', 'a', 'r', 'e', 'n', 't', ' '] := by decide
  simp only [htreeWord, hword]
  simp

theorem RecoveredPackResult.parent_eq {zlib : Bytes → Bytes} {g : GitEngine} {s : WalStore}
    {cfg : RecoverConfig} {faults : RecoverFaults} {seqs : List Nat} {res : RecoveredPackResult}
    (h : buildRecovery zlib g s cfg faults seqs = some (.ok (some res))) :
    res.parent = some (firstLine (lastHeaderBase (seqs.flatMap s.logEntries) cfg.defaultBaseCommitOid)) := by
  obtain ⟨info, r, hreplay, -, hbuilt, -⟩ := buildRecovery_ok h
  obtain ⟨hroot, -, message, objects, hobjects⟩ := rebuildGitObjects_commit hbuilt
  have hbase : info.baseCommitOid = lastHeaderBase (seqs.flatMap s.logEntries) cfg.defaultBaseCommitOid := by
    rw [replayLogs_info hreplay, foldl_readHeader_base]
    rfl
  have htree : '\n' ∉ res.rootTreeOid := fun hmem =>
    absurd (hroot.not_whitespace _ hmem) (by decide)
  simp only at hobjects
  simp only [RecoveredPackResult.parent, hobjects, List.find?_cons, decide_true, Option.bind_some,
    fromUtf8Lossy_asBytes, parentLine_commitContent _ _ _ _ _ htree, hbase]

/-- A commit that a recovery returns was built from the logs that were not done. -/
theorem recover_built {zlib : Bytes → Bytes} {g : GitEngine} {d d' : Durable} {cfg : RecoverConfig}
    {faults : RecoverFaults} {res : RecoveredPackResult}
    (h : recoverAndReplayUncommitted zlib g d cfg faults = some (.ok (some res), d')) :
    ∃ store, WalStore.SameLogs d.wal store ∧
      buildRecovery zlib g store cfg faults (uncommittedSeqs store faults) = some (.ok (some res)) := by
  obtain ⟨store, hsame, ⟨e, he, -⟩ | ⟨hnone, -⟩ | ⟨built, -, hbuild, hend⟩⟩ := recover_cases h
  · simp at he
  · simp at hnone
  · obtain ⟨hres, -⟩ | ⟨p, -, -, he, -⟩ := hend
    · simp only [Except.ok.injEq] at hres
      exact ⟨store, hsame, hres ▸ hbuild⟩
    · simp at he

theorem recovered_parent {zlib : Bytes → Bytes} {g : GitEngine} {d d' : Durable} {cfg : RecoverConfig}
    {faults : RecoverFaults} {res : RecoveredPackResult}
    (h : recoverAndReplayUncommitted zlib g d cfg faults = some (.ok (some res), d')) :
    res.parent = some (firstLine (lastHeaderBase
      ((uncommittedSeqs d.wal faults).flatMap d.wal.logEntries) cfg.defaultBaseCommitOid)) := by
  obtain ⟨store, hsame, hbuild⟩ := recover_built h
  rw [RecoveredPackResult.parent_eq hbuild, hsame.uncommittedSeqs, hsame.logEntries]

/-- The parent of a recovered commit has the tree that the logs were replayed on exactly when the last
base of their headers, or the default if they have none, is a commit with that tree. -/
theorem parent_has_replayed_tree (zlib : Bytes → Bytes) (g : GitEngine) (d d' : Durable)
    (cfg : RecoverConfig) (faults : RecoverFaults) (res : RecoveredPackResult)
    (treeOf : Str → Option Str)
    (h : recoverAndReplayUncommitted zlib g d cfg faults = some (.ok (some res), d')) :
    (∃ p, res.parent = some p ∧ treeOf p = some cfg.rootOid) ↔
      treeOf (firstLine (lastHeaderBase
        ((uncommittedSeqs d.wal faults).flatMap d.wal.logEntries) cfg.defaultBaseCommitOid)) =
        some cfg.rootOid := by
  rw [recovered_parent h]
  constructor
  · rintro ⟨p, hp, htree⟩
    exact Option.some.inj hp ▸ htree
  · intro htree
    exact ⟨_, rfl, htree⟩

/-! ## A log of a server that stood on another commit -/

def oidOf (c : Char) : Str := List.replicate 40 c

def emptyEngine : GitEngine where
  trees := fun _ => none
  rootTreeOid := none
  commitOid := none
  blobs := fun _ => none
  cachedLen := fun _ => none
  blobsDirLen := none
  gcsStorage := false

/-- One local log: the header of a server that started from `base`, and one new file. -/
def headerLog (base : Str) : Durable where
  wal := (WalStore.empty .localFs).setLog 0
    { entries := [⟨1, 0, some (.header ⟨[], base, [], [], 0, 0⟩)⟩,
        ⟨2, 0, some (.createFile ⟨['f'], 0, 0o100644⟩)⟩]
      sealed := false }
  repo := ⟨∅, []⟩

def headerConfig : RecoverConfig := ⟨oidOf '0', oidOf 'a', "A <a@b>".toList, [], none, 0⟩

def headerTree (c : Str) : Option Str := if c = oidOf 'a' then some (oidOf '0') else none

theorem headerLog_recovers (base : Str) (hbase : base = oidOf 'a' ∨ base = oidOf 'b') :
    ∃ res d', recoverAndReplayUncommitted zlibStored emptyEngine (headerLog base) headerConfig .none =
      some (.ok (some res), d') := by
  have hok : ∀ base ∈ [oidOf 'a', oidOf 'b'],
      ((recoverAndReplayUncommitted zlibStored emptyEngine (headerLog base) headerConfig .none).any
        fun p => (p.1.toOption.bind id).isSome) = true := by decide +kernel
  have := hok base (by simpa using hbase)
  rw [Option.any_eq_true] at this
  obtain ⟨⟨out, d'⟩, hrec, hout⟩ := this
  obtain ⟨res, hres⟩ := Option.isSome_iff_exists.mp hout
  cases out with
  | error e => cases hres
  | ok built => exact ⟨res, d', by rw [hrec, show built = some res from hres]⟩

/-- With the header of the server's own commit the two agree. -/
theorem parent_has_replayed_tree_own_header :
    ∃ res d', recoverAndReplayUncommitted zlibStored emptyEngine (headerLog (oidOf 'a')) headerConfig
        .none = some (.ok (some res), d') ∧
      ∃ p, res.parent = some p ∧ headerTree p = some headerConfig.rootOid := by
  obtain ⟨res, d', h⟩ := headerLog_recovers (oidOf 'a') (.inl rfl)
  exact ⟨res, d', h, (parent_has_replayed_tree _ _ _ _ _ _ _ headerTree h).mpr (by decide +kernel)⟩

/-- The logs are replayed on the default base, and the commit names the base of a header. -/
theorem parent_of_other_header :
    ¬ ∀ (zlib : Bytes → Bytes) (g : GitEngine) (d d' : Durable) (cfg : RecoverConfig)
      (faults : RecoverFaults) (res : RecoveredPackResult) (treeOf : Str → Option Str),
      treeOf cfg.defaultBaseCommitOid = some cfg.rootOid →
      recoverAndReplayUncommitted zlib g d cfg faults = some (.ok (some res), d') →
      ∃ p, res.parent = some p ∧ treeOf p = some cfg.rootOid := by
  intro h
  obtain ⟨res, d', hrec⟩ := headerLog_recovers (oidOf 'b') (.inr rfl)
  obtain ⟨p, hp, htree⟩ := h _ _ _ _ _ _ _ headerTree (by decide +kernel) hrec
  rw [recovered_parent hrec, Option.some.injEq] at hp
  subst hp
  exact absurd htree (by decide +kernel)

end GitNfs
