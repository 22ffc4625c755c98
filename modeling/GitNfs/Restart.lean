import GitNfs.Lib.Run
import GitNfs.Server
import GitNfs.Wal.Effects

/-! # Starting again after a crash

A server that dies inside its recovery is started again: it reads the head of the repository and the
markers once more and recovers what is not done. What it comes to hangs on the tree it starts from and on
the mutations in the logs that are not done.
-/

namespace GitNfs

/-! ## What a start reads -/

/-- The root tree that a commit names. -/
def treeLine (text : Str) : Option Str :=
  (lines text).findSome? fun line =>
    if "tree ".toList.isPrefixOf line then
      some (trim (trimStartMatches "tree ".toList line.length line))
    else none

/-- A repository as a start reads it: whether it is in the bucket, its head if it is not, the data of the
object of an id, and the engine that browses a commit. -/
structure Origin where
  gcs : Bool
  remoteHead : Str
  read : Str → Option Bytes
  engine : Str → GitEngine
  engine_gcs : ∀ oid, (engine oid).gcsStorage = gcs

structure Base where
  commitOid : Str
  rootOid : Str
  deriving DecidableEq, Repr

namespace Origin

def head (o : Origin) (branch : Option Str) (d : Durable) : Option Str :=
  if o.gcs then
    match d.repo.objects.resolveHead branch with
    | .ok (sha, _) => some sha
    | .error _ => none
  else some o.remoteHead

/-- The commit and the root tree that `GitEngine::initialize` comes to. -/
def base (o : Origin) (branch : Option Str) (d : Durable) : Option Base :=
  (o.head branch d).bind fun commitOid =>
    ((o.read commitOid).bind fun data => treeLine (fromUtf8Lossy data)).map (Base.mk commitOid)

end Origin

def Base.config (b : Base) (cfg : ServerConfig) (now : Nat) : RecoverConfig :=
  ⟨b.rootOid, b.commitOid, cfg.author, [], cfg.branch, now / 10 ^ 9⟩

theorem treeLine_commitContent (treeOid base author : Str) (timestamp : Nat) (message : Str)
    (htree : IsOid treeOid) :
    treeLine (commitContent treeOid base author timestamp message) = some treeOid := by
  have hlines : ∃ tail, commitContent treeOid base author timestamp message =
      ("tree ".toList ++ treeOid) ++ '\n' :: tail := by
    unfold commitContent
    exact ⟨_, List.flatMap_cons.trans (by rw [List.append_assoc]; rfl)⟩
  obtain ⟨tail, htail⟩ := hlines
  have hmem : ∀ c ∈ "tree ".toList ++ treeOid, c ≠ '\n' ∧ c ≠ '\r' := by
    intro c hc
    rcases List.mem_append.mp hc with hc | hc
    · have hword : "tree ".toList = ['t', 'r', 'e', 'e', ' '] := rfl
      rw [hword] at hc
      constructor <;> rintro rfl <;> exact absurd hc (by decide)
    · have := htree.not_whitespace c hc
      constructor <;> rintro rfl <;> exact absurd this (by decide)
  have hfirst : "tree ".toList.isPrefixOf ("tree ".toList ++ treeOid) = true :=
    List.isPrefixOf_iff_prefix.mpr (List.prefix_append _ _)
  -- an id holds no blank, so the word does not come twice
  have honce : "tree ".toList.isPrefixOf treeOid = false := by
    rw [Bool.eq_false_iff, ne_eq, List.isPrefixOf_iff_prefix]
    intro hstart
    have := htree.not_whitespace ' ' (hstart.subset (by decide))
    exact absurd this (by decide)
  have htrim : trimStartMatches "tree ".toList ("tree ".toList ++ treeOid).length ("tree ".toList ++ treeOid) =
      treeOid := by
    obtain ⟨n, hn⟩ : ∃ n, ("tree ".toList ++ treeOid).length = n + 1 :=
      Nat.exists_eq_succ_of_ne_zero (by rw [List.length_append]; simp)
    rw [hn, trimStartMatches, if_pos hfirst, List.drop_left]
    cases n with
    | zero => rfl
    | succ n => rw [trimStartMatches, honce, if_neg (by simp)]
  rw [treeLine, htail, lines_cons]
  · rw [List.findSome?_cons, if_pos hfirst, htrim, trim_eq_self _ htree.not_whitespace]
  · exact fun h => (hmem _ h).1 rfl
  · exact fun h => (hmem _ (List.mem_of_getLast? h)).2 rfl

/-! ## What the tree of a recovery hangs on -/

def WalEntry.isMutation (e : WalEntry) : Bool := !e.payload.all WalPayload.isHeader

namespace WalStore

def mutations (s : WalStore) (seqs : List Nat) : List WalEntry :=
  (seqs.flatMap s.logEntries).filter WalEntry.isMutation

def mutates (s : WalStore) (seq : Nat) : Bool := (s.logEntries seq).any WalEntry.isMutation

/-- The mutations that are not done, in the order of their logs. -/
def outstanding (s : WalStore) (faults : RecoverFaults) : List WalEntry :=
  s.mutations (uncommittedSeqs s faults)

theorem mutations_filter (s : WalStore) (p q : Nat → Bool) (seqs : List Nat)
    (h : ∀ seq ∈ seqs, s.mutates seq = true → p seq = q seq) :
    s.mutations (seqs.filter p) = s.mutations (seqs.filter q) := by
  induction seqs with
  | nil => rfl
  | cons seq seqs ih =>
    have hrest := ih fun i hi => h i (List.mem_cons_of_mem _ hi)
    cases hmut : s.mutates seq with
    | true =>
      have hpq := h seq List.mem_cons_self hmut
      rw [List.filter_cons, List.filter_cons, hpq]
      split_ifs
      · simp only [mutations, List.flatMap_cons, List.filter_append] at hrest ⊢
        rw [hrest]
      · exact hrest
    | false =>
      have hnone : (s.logEntries seq).filter WalEntry.isMutation = [] := by
        rw [mutates, List.any_eq_false] at hmut
        exact List.filter_eq_nil_iff.mpr hmut
      have hskip (b : Bool) (l : List Nat) : s.mutations (if b then seq :: l else l) = s.mutations l := by
        split_ifs
        · rw [mutations, List.flatMap_cons, List.filter_append, hnone, List.nil_append, mutations]
        · rfl
      rw [List.filter_cons, List.filter_cons, hskip, hskip, hrest]

theorem outstanding_congr {s t : WalStore} {f f' : RecoverFaults} (hentries : t.logEntries = s.logEntries)
    (hlist : t.listLogSequences = s.listLogSequences)
    (hdone : ∀ seq, s.mutates seq = true → t.isLogDone seq (f'.doneLookup seq) = s.isLogDone seq (f.doneLookup seq)) :
    t.outstanding f' = s.outstanding f := by
  have hmutations : t.mutations = s.mutations := by
    funext seqs
    rw [mutations, mutations, hentries]
  rw [outstanding, outstanding, uncommittedSeqs, uncommittedSeqs, hmutations, hlist]
  exact mutations_filter _ _ _ _ fun seq _ hmut => by rw [hdone seq hmut]

theorem outstanding_nil {s : WalStore} {f : RecoverFaults}
    (h : ∀ seq, s.mutates seq = true → s.isLogDone seq (f.doneLookup seq) = true) : s.outstanding f = [] := by
  have := mutations_filter s (fun seq => !s.isLogDone seq (f.doneLookup seq)) (fun _ => false)
    s.listLogSequences fun seq _ hmut => by rw [h seq hmut]; rfl
  rw [outstanding, uncommittedSeqs, this]
  simp [mutations]

end WalStore

/-- A header changes nothing that is replayed. -/
theorem replayWalEntries_filter (g : GitEngine) (entries : List WalEntry) (r : Replay) :
    replayWalEntries g (entries.filter WalEntry.isMutation) r = replayWalEntries g entries r := by
  induction entries generalizing r with
  | nil => rfl
  | cons entry entries ih =>
    obtain ⟨seq, time, payload⟩ := entry
    cases payload with
    | none => exact ih r
    | some payload =>
      cases payload with
      | header h => exact ih r
      | createFile | mkdir | write | truncate | remove | rename =>
        rw [List.filter_cons_of_pos rfl]
        simp only [replayWalEntries]
        split
        · rfl
        · exact ih _

theorem replayWalEntries_append {g : GitEngine} {entries rest : List WalEntry} {r r' : Replay}
    (h : replayWalEntries g entries r = .ok r') :
    replayWalEntries g (entries ++ rest) r = replayWalEntries g rest r' := by
  induction entries generalizing r with
  | nil =>
    simp only [replayWalEntries, Except.ok.injEq] at h
    rw [List.nil_append, h]
  | cons entry entries ih =>
    obtain ⟨seq, time, payload⟩ := entry
    cases payload with
    | none => exact ih h
    | some payload =>
      simp only [List.cons_append, replayWalEntries] at h ⊢
      cases hr : r.replayPayload g payload with
      | error e => simp [hr] at h
      | ok r₁ =>
        rw [hr] at h
        exact ih h

theorem replayLogs_mutations {g : GitEngine} {s : WalStore} {faults : RecoverFaults} {seqs : List Nat}
    {info info' : CommitInfo} {r r' : Replay} (h : replayLogs g s faults seqs info r = .ok (info', r')) :
    replayWalEntries g (s.mutations seqs) r = .ok r' := by
  rw [WalStore.mutations, replayWalEntries_filter]
  induction seqs generalizing info r with
  | nil =>
    simp only [replayLogs, Except.ok.injEq, Prod.mk.injEq] at h
    rw [h.2]
    rfl
  | cons seq seqs ih =>
    rw [replayLogs] at h
    split_ifs at h
    split at h
    · simp at h
    · rename_i hr
      rw [List.flatMap_cons, replayWalEntries_append hr]
      exact ih h

/-- The tree that a list of mutations makes of a root tree. -/
def TreeOf (g : GitEngine) (rootOid : Str) (mutations : List WalEntry) (tree : Str) : Prop :=
  ∃ r, replayWalEntries g mutations (Replay.new rootOid) = .ok r ∧
    ((r.staging.hasModifications = false ∧ tree = rootOid) ∨
     (r.staging.hasModifications = true ∧ ∃ base author message timestamp rebuilt,
      rebuildGitObjects r.vfs r.staging g base author message timestamp = some (.ok rebuilt) ∧
      rebuilt.rootTreeOid = tree))

theorem TreeOf.unique {g : GitEngine} {rootOid tree tree' : Str} {mutations : List WalEntry}
    (h : TreeOf g rootOid mutations tree) (h' : TreeOf g rootOid mutations tree') : tree = tree' := by
  obtain ⟨r, hr, hcase⟩ := h
  obtain ⟨r', hr', hcase'⟩ := h'
  rw [hr, Except.ok.injEq] at hr'
  subst hr'
  rcases hcase with ⟨hno, rfl⟩ | ⟨hmod, base, author, message, timestamp, rebuilt, hbuilt, rfl⟩
  · rcases hcase' with ⟨-, rfl⟩ | ⟨hmod', -⟩
    · rfl
    · rw [hno] at hmod'
      simp at hmod'
  · rcases hcase' with ⟨hno, -⟩ | ⟨-, base', author', message', timestamp', rebuilt', hbuilt', rfl⟩
    · rw [hno] at hmod
      simp at hmod
    · exact rebuildGitObjects_rootTreeOid hbuilt hbuilt'

theorem TreeOf.nil (g : GitEngine) (rootOid : Str) : TreeOf g rootOid [] rootOid :=
  ⟨Replay.new rootOid, rfl, .inl ⟨rfl, rfl⟩⟩

theorem TreeOf.of_buildRecovery {zlib : Bytes → Bytes} {g : GitEngine} {s : WalStore} {cfg : RecoverConfig}
    {faults : RecoverFaults} {seqs : List Nat} {built : Option RecoveredPackResult}
    (h : buildRecovery zlib g s cfg faults seqs = some (.ok built)) :
    TreeOf g cfg.rootOid (s.mutations seqs) (built.elim cfg.rootOid (·.rootTreeOid)) := by
  cases built with
  | some res =>
    obtain ⟨info, r, hreplay, hmod, hbuilt, -⟩ := buildRecovery_ok h
    exact ⟨r, replayLogs_mutations hreplay, .inr ⟨hmod, _, _, _, _, _, hbuilt, rfl⟩⟩
  | none =>
    unfold buildRecovery at h
    split_ifs at h
    · simp at h
    · split at h
      · simp at h
      · rename_i hreplay
        exact ⟨_, replayLogs_mutations hreplay, .inl ⟨buildPackFromRecoveredState_none h, rfl⟩⟩

/-! ## The head after a commit was written -/

/-- Wherever a recovery breaks off behind the write of the branch, the commit is the head. -/
theorem recovery_heads {g : GitEngine} {d : Durable} {branch : Option Str} {seqs : List Nat}
    {res : RecoveredPackResult} {p : CrashPoint} {data : Bytes} (hoid : IsOid res.commitOid)
    (href : .repo (Bucket.branchRef (GcsGitStorage.targetBranch branch)) data ∈
      (recoveryWrites g d branch seqs (some res)).take p.writes) :
    g.gcsStorage = true ∧
      Heads (d.crash (recoveryWrites g d branch seqs (some res)) p).repo.objects branch res.commitOid := by
  have hmarks : ∀ w ∈ seqs.flatMap (closeLog res.packed), ∀ name data, w ≠ .repo name data := by
    intro w hw name data heq
    have := closeLog_isSome res.packed seqs w hw
    rw [heq] at this
    simp [DurableWrite.log?] at this
  cases hgcs : g.gcsStorage with
  | false =>
    simp only [recoveryWrites, hgcs, Bool.false_eq_true, if_false, List.nil_append] at href
    exact absurd rfl (hmarks _ (List.mem_of_mem_take href) _ _)
  | true =>
    refine ⟨rfl, ?_⟩
    have hws : recoveryWrites g d branch seqs (some res) =
        (GcsGitStorage.commitWrites res.commitOid res.packSha res.packData res.idxData branch).map
          (fun w => DurableWrite.repo w.1 w.2) ++
        ((((GcsGitStorage.commitWrites res.commitOid res.packSha res.packData res.idxData branch).foldl
          GcsGitStorage.writeObject d.repo).refreshPackIndexes.serverInfoWrites res.commitOid branch).map
          (fun w => DurableWrite.repo w.1 w.2) ++ seqs.flatMap (closeLog res.packed)) := by
      simp only [recoveryWrites, hgcs, if_true, GcsGitStorage.completedCommitWrites, List.map_append,
        List.append_assoc]
      rfl
    rw [hws] at href ⊢
    generalize hinfo : ((GcsGitStorage.commitWrites res.commitOid res.packSha res.packData res.idxData
      branch).foldl GcsGitStorage.writeObject d.repo).refreshPackIndexes = storage at href ⊢
    -- the branch is the fourth object
    have hfour : 4 ≤ p.writes := by
      by_contra hlt
      have hthree := (List.take_subset_take_left _ (show p.writes ≤ 3 by omega)) href
      have hne := GcsGitStorage.branchRef_head (GcsGitStorage.targetBranch branch)
      simp only [GcsGitStorage.commitWrites, List.map_cons, List.cons_append, List.take_succ_cons,
        List.take_zero, List.mem_cons, DurableWrite.repo.injEq, List.not_mem_nil, or_false] at hthree
      rcases hthree with h | h | h
      · exact GcsGitStorage.ne_of_head hne (GcsGitStorage.packObjectName_head _ _) (by decide) h.1
      · exact GcsGitStorage.ne_of_head hne (GcsGitStorage.packObjectName_head _ _) (by decide) h.1
      · exact GcsGitStorage.ne_of_head (b := 'H') hne rfl (by decide) h.1
    obtain ⟨k, hk⟩ := Nat.exists_eq_add_of_le hfour
    have hpoint : p = ⟨((GcsGitStorage.commitWrites res.commitOid res.packSha res.packData res.idxData
        branch).map fun w => DurableWrite.repo w.1 w.2).length + k, p.torn⟩ := by
      cases p
      simp only at hk
      rw [hk]
      rfl
    rw [hpoint, crash_append]
    refine crash_induction (P := fun e => Heads e.repo.objects branch res.commitOid) _ _ ?_ ?_ _
      (heads_of_ref _ _ _ hoid)
    · intro e w hw he
      rcases List.mem_append.mp hw with hw | hw
      · obtain ⟨x, hx, rfl⟩ := List.mem_map.mp hw
        obtain ⟨hpacked, hnoref⟩ := GcsGitStorage.serverInfoWrites_name hx
        exact he.write (GcsGitStorage.serverInfoWrites_ne_head hx) hpacked hnoref
      · cases w with
        | repo name data => exact absurd rfl (hmarks _ hw name data)
        | done | pack | idx => exact he
    · intro e w hw n w' htorn he
      have hsome := (DurableWrite.torn_log? htorn).2
      cases w' with
      | repo name data => simp [DurableWrite.log?] at hsome
      | done | pack | idx => exact he

/-! ## Crashed starts -/

/-- A start that dies: what fails in its recovery, and where that breaks off. -/
structure CrashedStart where
  now : Nat
  faults : RecoverFaults
  point : CrashPoint

namespace Origin

variable (o : Origin) (cfg : ServerConfig)

def plan (d : Durable) (now : Nat) (faults : RecoverFaults) : Option RecoveryPlan :=
  (o.base cfg.branch d).map fun b =>
    recoveryPlan cfg.zlib (o.engine b.commitOid) d (b.config cfg now) faults

/-- What a start leaves that dies in its recovery, if it comes that far. -/
def crash (d : Durable) (a : CrashedStart) : Durable :=
  match o.plan cfg d a.now a.faults with
  | some plan => plan.found.crash plan.writes a.point
  | none => d

/-- The root tree that a start serves after a recovery that comes to its end. -/
def restart (d : Durable) (now : Nat) (faults : RecoverFaults) : Option Str :=
  (o.base cfg.branch d).bind fun b =>
    match recoverAndReplayUncommitted cfg.zlib (o.engine b.commitOid) d (b.config cfg now) faults with
    | some (.ok built, _) => some (built.elim b.rootOid (·.rootTreeOid))
    | _ => none

/-- The marker of no log with mutations is overlooked. -/
def ReadsMarkers (s : WalStore) (faults : RecoverFaults) : Prop :=
  ∀ seq, s.mutates seq = true → s.isLogDone seq (faults.doneLookup seq) = s.isLogDone seq false

/-- The branch was written before the recovery broke off. -/
def WroteBranch (plan : RecoveryPlan) (p : CrashPoint) : Prop :=
  ∃ data, DurableWrite.repo (Bucket.branchRef (GcsGitStorage.targetBranch cfg.branch)) data ∈
    plan.writes.take p.writes

/-- The crash leaves the head and the markers of the logs with mutations as they were, or the commit as
the head and all these logs marked. -/
def Clean (d : Durable) (a : CrashedStart) : Prop :=
  let d' := o.crash cfg d a
  ReadsMarkers d.wal a.faults ∧
    ((o.head cfg.branch d' = o.head cfg.branch d ∧
      ∀ seq, d.wal.mutates seq = true → d'.wal.isLogDone seq false = d.wal.isLogDone seq false) ∨
     ((∀ seq, d.wal.mutates seq = true → d'.wal.isLogDone seq false = true) ∧
      ∀ plan, o.plan cfg d a.now a.faults = some plan → plan.built = none ∨ WroteBranch cfg plan a.point))

/-- What was published is read back. -/
def ReadsBack (d : Durable) (a : CrashedStart) : Prop :=
  ∀ plan res, o.plan cfg d a.now a.faults = some plan → plan.built = some res →
    ∀ object ∈ res.objects, o.read object.oid = some object.data

/-- What is not done makes a tree of the tree that a start finds. -/
def Makes (d : Durable) (tree : Str) : Prop :=
  ∃ b, o.base cfg.branch d = some b ∧
    TreeOf (o.engine b.commitOid) b.rootOid (d.wal.outstanding .none) tree

variable {o cfg}

theorem base_congr {branch : Option Str} {d d' : Durable} (h : o.head branch d' = o.head branch d) :
    o.base branch d' = o.base branch d := by
  rw [base, h, base]

theorem head_congr {branch : Option Str} {d d' : Durable} (h : d'.repo = d.repo) :
    o.head branch d' = o.head branch d := by
  rw [head, h, head]

theorem plan_cases {d : Durable} {now : Nat} {faults : RecoverFaults} {plan : RecoveryPlan}
    (h : o.plan cfg d now faults = some plan) :
    ∃ b store, o.base cfg.branch d = some b ∧ WalStore.SameLogs d.wal store ∧
      let found : Durable := { d with wal := store }
      let g := o.engine b.commitOid
      let seqs := uncommittedSeqs d.wal faults
      (plan = ⟨found, none, []⟩ ∨
       ∃ built, buildRecovery cfg.zlib g store (b.config cfg now) faults seqs = some (.ok built) ∧
        plan = ⟨found, built, recoveryWrites g found cfg.branch seqs built⟩) := by
  rw [Origin.plan, Option.map_eq_some_iff] at h
  obtain ⟨b, hb, rfl⟩ := h
  obtain ⟨store, hsame, hplan⟩ :=
    recoveryPlan_cases cfg.zlib (o.engine b.commitOid) d (b.config cfg now) faults
  exact ⟨b, store, hb, hsame, hplan⟩

theorem crash_entries (d : Durable) (a : CrashedStart) :
    (o.crash cfg d a).wal.logEntries = d.wal.logEntries ∧
      (o.crash cfg d a).wal.listLogSequences = d.wal.listLogSequences := by
  unfold crash
  cases hplan : o.plan cfg d a.now a.faults with
  | none => exact ⟨rfl, rfl⟩
  | some plan =>
    obtain ⟨b, store, -, hsame, hcases⟩ := plan_cases hplan
    have hfound : plan.found = { d with wal := store } := by
      obtain rfl | ⟨built, -, rfl⟩ := hcases <;> rfl
    have hlogs := (crash_logs plan.found plan.writes a.point).1
    have hentries : (plan.found.crash plan.writes a.point).wal.logEntries = store.logEntries := by
      funext seq
      rw [WalStore.logEntries, hlogs, hfound, WalStore.logEntries]
    have hlist : (plan.found.crash plan.writes a.point).wal.listLogSequences = store.listLogSequences := by
      rw [WalStore.listLogSequences, hlogs, hfound, WalStore.listLogSequences]
    exact ⟨hentries.trans hsame.logEntries, hlist.trans hsame.listLogSequences⟩

theorem outstanding_faults {s : WalStore} {faults : RecoverFaults} (h : ReadsMarkers s faults) :
    s.outstanding faults = s.outstanding .none :=
  WalStore.outstanding_congr rfl rfl h

/-- What a recovery builds is the tree that the outstanding mutations make. -/
theorem treeOf_built {g : GitEngine} {d : Durable} {store : WalStore} {b : Base} {now : Nat}
    {faults : RecoverFaults} {built : Option RecoveredPackResult} (hsame : WalStore.SameLogs d.wal store)
    (hreads : ReadsMarkers d.wal faults)
    (h : buildRecovery cfg.zlib g store (b.config cfg now) faults (uncommittedSeqs d.wal faults) =
      some (.ok built)) :
    TreeOf g b.rootOid (d.wal.outstanding .none) (built.elim b.rootOid (·.rootTreeOid)) := by
  have htree := TreeOf.of_buildRecovery h
  rwa [WalStore.mutations, hsame.logEntries, ← WalStore.mutations, ← WalStore.outstanding,
    outstanding_faults hreads] at htree

theorem restart_makes {d : Durable} {now : Nat} {faults : RecoverFaults} {tree : Str}
    (hreads : ReadsMarkers d.wal faults) (h : o.restart cfg d now faults = some tree) :
    o.Makes cfg d tree := by
  rw [restart, Option.bind_eq_some_iff] at h
  obtain ⟨b, hb, h⟩ := h
  split at h
  · rename_i built d' hrec
    simp only [Option.some.injEq] at h
    subst h
    refine ⟨b, hb, ?_⟩
    obtain ⟨store, hsame, ⟨e, he, -⟩ | ⟨hnone, hseqs, -⟩ | ⟨built', -, hbuild, hend⟩⟩ := recover_cases hrec
    · simp at he
    · simp only [Except.ok.injEq] at hnone
      subst hnone
      have hnil : d.wal.outstanding .none = [] := by
        rw [hsame.uncommittedSeqs] at hseqs
        rw [← outstanding_faults hreads, WalStore.outstanding, hseqs]
        rfl
      rw [hnil]
      exact .nil _ _
    · have heq : built = built' := by
        obtain ⟨hres, -⟩ | ⟨p, -, -, he, -⟩ := hend
        · exact Except.ok.inj hres
        · simp at he
      subst heq
      rw [hsame.uncommittedSeqs] at hbuild
      exact treeOf_built hsame hreads hbuild
  · simp at h

/-- After a crash behind the branch a start finds the commit and its tree. -/
theorem base_of_wroteBranch {found : Durable} {b : Base} {a : CrashedStart} {seqs : List Nat}
    {store : WalStore} {faults : RecoverFaults} {res : RecoveredPackResult}
    (hbuild : buildRecovery cfg.zlib (o.engine b.commitOid) store (b.config cfg a.now) faults seqs =
      some (.ok (some res)))
    (hread : ∀ object ∈ res.objects, o.read object.oid = some object.data)
    (hwrote : WroteBranch cfg
      ⟨found, some res, recoveryWrites (o.engine b.commitOid) found cfg.branch seqs (some res)⟩ a.point) :
    o.base cfg.branch
      (found.crash (recoveryWrites (o.engine b.commitOid) found cfg.branch seqs (some res)) a.point) =
      some ⟨res.commitOid, res.rootTreeOid⟩ := by
  obtain ⟨info, r, -, -, hrebuilt, -⟩ := buildRecovery_ok hbuild
  obtain ⟨hroot, hoid, message, objects, hobjects⟩ := rebuildGitObjects_commit hrebuilt
  obtain ⟨data, hmem⟩ := hwrote
  obtain ⟨hgcs, hheads⟩ := recovery_heads hoid hmem
  rw [o.engine_gcs] at hgcs
  obtain ⟨name, hresolve⟩ := hheads.resolveHead
  simp only at hobjects
  have hcommit := hread _ (by rw [hobjects]; exact List.mem_cons_self)
  rw [base, head, if_pos hgcs, hresolve]
  simp only [Option.bind_some, hcommit, fromUtf8Lossy_asBytes, treeLine_commitContent _ _ _ _ _ hroot,
    Option.map_some]

/-- A clean crash leaves the tree that the next start comes to. -/
theorem crash_makes {d : Durable} {a : CrashedStart} {tree : Str} (hmakes : o.Makes cfg d tree)
    (hclean : o.Clean cfg d a) (hback : o.ReadsBack cfg d a) : o.Makes cfg (o.crash cfg d a) tree := by
  obtain ⟨b, hb, htree⟩ := hmakes
  obtain ⟨hentries, hlist⟩ : (o.crash cfg d a).wal.logEntries = d.wal.logEntries ∧
      (o.crash cfg d a).wal.listLogSequences = d.wal.listLogSequences := crash_entries d a
  obtain ⟨hreads, ⟨hhead, hmarks⟩ | ⟨hmarks, hbranch⟩⟩ := hclean
  · refine ⟨b, (base_congr hhead).trans hb, ?_⟩
    rw [WalStore.outstanding_congr (f := .none) hentries hlist hmarks]
    exact htree
  · have hnil : (o.crash cfg d a).wal.outstanding .none = [] := by
      refine WalStore.outstanding_nil fun seq hmut => hmarks seq ?_
      rwa [WalStore.mutates, hentries] at hmut
    suffices hbase : ∃ commitOid, o.base cfg.branch (o.crash cfg d a) = some ⟨commitOid, tree⟩ by
      obtain ⟨commitOid, hbase⟩ := hbase
      exact ⟨_, hbase, hnil ▸ .nil _ _⟩
    cases hplan : o.plan cfg d a.now a.faults with
    | none => simp [Origin.plan, hb] at hplan
    | some plan =>
      have hcrash : o.crash cfg d a = plan.found.crash plan.writes a.point := by rw [crash, hplan]
      obtain ⟨b', store, hb', hsame, hcases⟩ := plan_cases hplan
      obtain rfl : b' = b := Option.some.inj (hb'.symm.trans hb)
      have hsettled (hrepo : (o.crash cfg d a).repo = d.repo) (hroot : b'.rootOid = tree) :
          ∃ commitOid, o.base cfg.branch (o.crash cfg d a) = some ⟨commitOid, tree⟩ :=
        ⟨b'.commitOid, by rw [base_congr (head_congr hrepo), hb, ← hroot]⟩
      obtain rfl | ⟨built, hbuild, rfl⟩ := hcases
      · rw [crash_nil] at hcrash
        refine hsettled (by rw [hcrash]) ((TreeOf.nil (o.engine b'.commitOid) b'.rootOid).unique ?_)
        have hsameOut : (o.crash cfg d a).wal.outstanding .none = d.wal.outstanding .none := by
          refine WalStore.outstanding_congr hentries hlist fun seq _ => ?_
          rw [hcrash, WalStore.isLogDone, hsame.done]
          rfl
        rwa [← hsameOut, hnil] at htree
      · have hbuilt := treeOf_built hsame hreads hbuild
        cases built with
        | none =>
          refine hsettled ?_ (hbuilt.unique htree)
          rw [hcrash]
          refine crash_repo _ _ _ fun w hw => ?_
          obtain ⟨seq, -, hw⟩ := List.mem_flatMap.mp hw
          simp only [markLogDone, Option.map_none, Option.toList_none, List.append_nil,
            List.mem_singleton] at hw
          rw [hw]
          rfl
        | some res =>
          obtain hno | hwrote := hbranch _ hplan
          · simp at hno
          · rw [hcrash, ← hbuilt.unique htree]
            exact ⟨_, base_of_wroteBranch hbuild (hback _ res hplan rfl) hwrote⟩

variable (o cfg)

def step (d : Durable) (a : CrashedStart) : Option Durable := some (o.crash cfg d a)

end Origin

namespace Origin

/-- A crash before the first write is clean. -/
theorem clean_of_nothing_written (o : Origin) (cfg : ServerConfig) (d : Durable) (now : Nat)
    (faults : RecoverFaults) (hreads : ReadsMarkers d.wal faults) :
    o.Clean cfg d ⟨now, faults, ⟨0, none⟩⟩ := by
  refine ⟨hreads, .inl ?_⟩
  unfold crash
  cases hplan : o.plan cfg d now faults with
  | none => exact ⟨rfl, fun _ _ => rfl⟩
  | some plan =>
    obtain ⟨b, store, -, hsame, hcases⟩ := plan_cases hplan
    have hfound : plan.found = { d with wal := store } := by
      obtain rfl | ⟨built, -, rfl⟩ := hcases <;> rfl
    simp only [crash_none, hfound]
    exact ⟨head_congr rfl, fun seq _ => by simp only [WalStore.isLogDone, hsame.done]⟩

/-- The file `x` of the base tree is renamed and made again. -/
def movedLog : Durable where
  wal := (WalStore.empty .gcs).setLog 0
    { entries := [⟨1, 0, some (.rename ['x'] ['y'])⟩, ⟨2, 0, some (.createFile ⟨['x'], 0, 0o100644⟩)⟩]
      sealed := false }
  repo :=
    { objects := ((∅ : Bucket).writeRapidObject "HEAD".toList (asBytes "ref: refs/heads/master\n".toList))
        |>.writeRapidObject "refs/heads/master".toList (asBytes (oidOf 'a' ++ ['\n']))
      packNames := [] }

def movedEngine : GitEngine :=
  { emptyEngine with
    trees := fun oid => if oid = oidOf '0' then some ⟨[⟨.regularFile, ['x'], oidOf '1'⟩]⟩ else none
    gcsStorage := true }

def movedConfig : ServerConfig := ⟨zlibStored, "A <a@b>".toList, [], none⟩

def movedPlan : RecoveryPlan :=
  recoveryPlan zlibStored movedEngine movedLog (Base.config ⟨oidOf 'a', oidOf '0'⟩ movedConfig 0) .none

def movedObjects : List GitObjectToPack := movedPlan.built.elim [] (·.objects)

/-- The repository before the recovery and after it was published. -/
def movedOrigin : Origin where
  gcs := true
  remoteHead := []
  read := fun oid =>
    if oid = oidOf 'a' then some (asBytes ("tree ".toList ++ oidOf '0' ++ ['\n']))
    else (movedObjects.find? fun object => object.oid = oid).map (·.data)
  engine := fun oid =>
    if oid = oidOf 'a' then movedEngine
    else { movedObjects.foldl (GitEngine.applyObject none) movedEngine with gcsStorage := true }
  engine_gcs := fun oid => by split_ifs <;> rfl

theorem movedOrigin_readsBack (p : CrashPoint) :
    movedOrigin.ReadsBack movedConfig movedLog ⟨0, .none, p⟩ := by
  have hall : ((movedOrigin.plan movedConfig movedLog 0 .none).all fun plan => plan.built.all fun res =>
      res.objects.all fun object => movedOrigin.read object.oid = some object.data) = true := by
    decide +kernel
  intro plan res hplan hbuilt object hobject
  rw [hplan, Option.all_some, hbuilt, Option.all_some, List.all_eq_true] at hall
  simpa using hall object hobject

end Origin

end GitNfs
