import GitNfs.Wal.Faithful
import GitNfs.Wal.Framing
import GitNfs.Wal.Trees

/-! # A log that was cut off

A server dies and its log is cut off anywhere. What is left of it is replayed to what the server showed after a
beginning of its requests, with everything that had reached the log.
-/

namespace GitNfs

open VfsManager

namespace Fs

variable {g : GitEngine} {fs fs' : Fs}

/-! ## The beginning of a run -/

/-- What a beginning of the log tells of is a beginning of the run. -/
theorem serveAll_cut {ops : List (Nat × NfsOp)} {log : List WalPayload} (h : fs.serveAll g ops = some (fs', log))
    (m : Nat) : ∃ done rest fs₁, ops = done ++ rest ∧ fs.serveAll g done = some (fs₁, log.take m) := by
  induction ops generalizing fs log m with
  | nil =>
    simp only [serveAll, Option.some.injEq, Prod.mk.injEq] at h
    obtain ⟨-, rfl⟩ := h
    exact ⟨[], [], fs, rfl, by rw [List.take_nil]; rfl⟩
  | cons op ops ih =>
    obtain ⟨now, op⟩ := op
    obtain ⟨hd, heq, hrest⟩ := Option.bind_eq_some_iff.mp h
    obtain ⟨⟨fs₂, later⟩, hrun, hlog⟩ := Option.map_eq_some_iff.mp hrest
    obtain ⟨rfl, rfl⟩ := Prod.mk.inj hlog
    have hstep {done : List (Nat × NfsOp)} {fs₁ : Fs} {log₁ : List WalPayload}
        (hdone : hd.fs.serveAll g done = some (fs₁, log₁)) :
        fs.serveAll g ((now, op) :: done) = some (fs₁, hd.logged.toList ++ log₁) := by
      rw [serveAll, heq, Option.bind_some, hdone]
      rfl
    cases hlogged : hd.logged with
    | none =>
      obtain ⟨done, rest, fs₁, rfl, hdone⟩ := ih hrun m
      exact ⟨(now, op) :: done, rest, fs₁, rfl, by rw [hstep hdone, hlogged]; rfl⟩
    | some payload =>
      cases m with
      | zero => exact ⟨[], (now, op) :: ops, fs, rfl, rfl⟩
      | succ m =>
        obtain ⟨done, rest, fs₁, rfl, hdone⟩ := ih hrun m
        exact ⟨(now, op) :: done, rest, fs₁, rfl, by rw [hstep hdone, hlogged]; rfl⟩

theorem AllFound.beginning {done rest : List (Nat × NfsOp)} (h : fs.AllFound g (done ++ rest)) :
    fs.AllFound g done := by
  induction done generalizing fs with
  | nil => trivial
  | cons op done ih => exact ⟨h.1, fun hd heq => ih (h.2 hd heq)⟩

theorem serveAll_sound {ops : List (Nat × NfsOp)} {log : List WalPayload} (h : fs.serveAll g ops = some (fs', log))
    (hs : fs.Sound) : fs'.Sound := by
  induction ops generalizing fs log with
  | nil =>
    simp only [serveAll, Option.some.injEq, Prod.mk.injEq] at h
    exact h.1 ▸ hs
  | cons op ops ih =>
    obtain ⟨now, op⟩ := op
    obtain ⟨hd, heq, hrest⟩ := Option.bind_eq_some_iff.mp h
    obtain ⟨⟨fs₂, later⟩, hrun, hlog⟩ := Option.map_eq_some_iff.mp hrest
    obtain ⟨rfl, -⟩ := Prod.mk.inj hlog
    exact ih hrun ((hs.act none op).alike (handle_answers heq).alike)

end Fs

/-! ## What is left of the log -/

/-- A log that was cut off has a beginning of its entries, with every entry that is whole. -/
theorem decode_cut {encode : WalEntry → Bytes} {decode : Bytes → Option WalEntry} {start : WalEntry}
    {entries : List WalEntry} (hprost : ∀ e ∈ start :: entries, decode (encode e) = some e)
    (hlen : ∀ e ∈ start :: entries, (encode e).length < 2 ^ 32) (k : Nat) :
    ∃ m ≤ entries.length, ∃ n ≤ 1,
      (WalEntry.decodeAllFramed decode (((start :: entries).flatMap (WalEntry.encodeFramed encode)).take k)).1 =
        [start].take n ++ entries.take m ∧
      ∀ n ≤ entries.length, ((start :: entries.take n).flatMap (WalEntry.encodeFramed encode)).length ≤ k → n ≤ m := by
  obtain ⟨n, hn, hread, -, hmax⟩ := Framing.Reader.scan_take (start :: entries)
    (fun e he => WalEntry.encodeFramed_frames (hprost e he) (hlen e he)) k
  rw [List.length_cons] at hn
  unfold WalEntry.decodeAllFramed
  rw [hread]
  refine ⟨n - 1, by omega, min n 1, by omega, ?_, fun m hm hk => ?_⟩
  · cases n with
    | zero => rfl
    | succ n => rw [show min (n + 1) 1 = 1 by omega]; rfl
  · have hle := hmax (m + 1) (by rw [List.length_cons]; omega) hk
    omega

theorem replayWalEntries_start {g : GitEngine} {start : WalEntry}
    (hstart : ∃ header, start.payload = some (.header header)) (n : Nat) (entries : List WalEntry) (r : Replay) :
    replayWalEntries g ([start].take n ++ entries) r = replayWalEntries g entries r := by
  cases n with
  | zero => rfl
  | succ n =>
    obtain ⟨header, hheader⟩ := hstart
    rw [List.take_succ_cons, List.take_nil, List.singleton_append, replayWalEntries]
    simp only [hheader]
    rfl

namespace Fs

/-- The log of a run that was cut off is replayed beside a beginning of the run. -/
theorem Twins.cut {encode : WalEntry → Bytes} {decode : Bytes → Option WalEntry} {g : GitEngine}
    {rootOid : Str} {ops : List (Nat × NfsOp)} {fs : Fs} {log : List WalPayload} {start : WalEntry}
    {entries : List WalEntry} (hnames : ∀ op ∈ ops, ∀ name ∈ op.2.names, ValidName name)
    (hfound : (Fs.new rootOid).AllFound g ops) (hrun : (Fs.new rootOid).serveAll g ops = some (fs, log))
    (hstart : ∃ header, start.payload = some (.header header)) (hentries : entries.map (·.payload) = log.map some)
    (hprost : ∀ e ∈ start :: entries, decode (encode e) = some e)
    (hlen : ∀ e ∈ start :: entries, (encode e).length < 2 ^ 32) (k : Nat) :
    ∃ done rest fs₁ log₁ r, ops = done ++ rest ∧ (Fs.new rootOid).serveAll g done = some (fs₁, log₁) ∧
      (∀ n ≤ entries.length, ((start :: entries.take n).flatMap (WalEntry.encodeFramed encode)).length ≤ k →
        n ≤ log₁.length) ∧
      replayWalEntries g (WalEntry.decodeAllFramed decode
        (((start :: entries).flatMap (WalEntry.encodeFramed encode)).take k)).1 (.new rootOid) = .ok r ∧
      Twins g fs₁ r.fs := by
  obtain ⟨m, hm, n, -, hread, hmax⟩ := decode_cut hprost hlen k
  obtain ⟨done, rest, fs₁, rfl, hdone⟩ := serveAll_cut hrun m
  have hpayloads : (entries.take m).map (·.payload) = (log.take m).map some := by
    rw [List.map_take, hentries, List.map_take]
  obtain ⟨r, hr, htwins⟩ := (Twins.new rootOid).run (fun op hop => hnames op (List.mem_append_left _ hop))
    hfound.beginning hdone hpayloads
  have hlength : (log.take m).length = m := by
    have hsame := congrArg List.length hentries
    rw [List.length_map, List.length_map] at hsame
    rw [List.length_take]
    omega
  refine ⟨done, rest, fs₁, log.take m, r, rfl, hdone, fun n hn hk => hlength.symm ▸ hmax n hn hk, ?_, htwins⟩
  rw [hread, replayWalEntries_start hstart, hr]

/-- A server that dies is replayed to what it showed after a beginning of its requests, and every request whose entry
had reached the log whole is one of these. -/
theorem crash_shows_beginning (encode : WalEntry → Bytes) (decode : Bytes → Option WalEntry) (g : GitEngine)
    (rootOid : Str) (ops : List (Nat × NfsOp)) (fs : Fs) (log : List WalPayload) (start : WalEntry)
    (entries : List WalEntry) (hnames : ∀ op ∈ ops, ∀ name ∈ op.2.names, ValidName name)
    (hfound : (Fs.new rootOid).AllFound g ops) (hrun : (Fs.new rootOid).serveAll g ops = some (fs, log))
    (hstart : ∃ header, start.payload = some (.header header)) (hentries : entries.map (·.payload) = log.map some)
    (hprost : ∀ e ∈ start :: entries, decode (encode e) = some e)
    (hlen : ∀ e ∈ start :: entries, (encode e).length < 2 ^ 32) (k : Nat) :
    ∃ done rest fs₁ log₁ r, ops = done ++ rest ∧ (Fs.new rootOid).serveAll g done = some (fs₁, log₁) ∧
      (∀ n ≤ entries.length, ((start :: entries.take n).flatMap (WalEntry.encodeFramed encode)).length ≤ k →
        n ≤ log₁.length) ∧
      replayWalEntries g (WalEntry.decodeAllFramed decode
        (((start :: entries).flatMap (WalEntry.encodeFramed encode)).take k)).1 (.new rootOid) = .ok r ∧
      ∀ path, r.fs.foundAt g path = fs₁.foundAt g path := by
  obtain ⟨done, rest, fs₁, log₁, r, hops, hdone, hwhole, hreplay, htwins⟩ :=
    Twins.cut hnames hfound hrun hstart hentries hprost hlen k
  exact ⟨done, rest, fs₁, log₁, r, hops, hdone, hwhole, hreplay, htwins.foundAt⟩

end Fs

/-! ## Runs that can be checked -/

namespace Fs

variable {g : GitEngine} {fs : Fs}

def leadsBackIn (g : GitEngine) (v : VfsManager) (i : Nat) : Bool :=
  (v.getPath i).any fun res => res.toOption.any fun path => (v.lookupPath g path).1.toOption == some i

theorem leadsBack_of_in {v : VfsManager} {i : Nat} (h : leadsBackIn g v i = true) : LeadsBack g v i := by
  obtain ⟨res, hres, hany⟩ := (Option.any_eq_true _ _).mp h
  obtain ⟨path, hpath, hfound⟩ := (Option.any_eq_true _ _).mp hany
  exact ⟨path, hres.trans (congrArg some (toOption_eq_some hpath)), toOption_eq_some (beq_iff_eq.mp hfound)⟩

/-- Enough for a request to be found again. -/
def foundAgainIn (g : GitEngine) (fs : Fs) : NfsOp → Bool
  | .create d _ | .createExclusive d _ | .mkdir d _ => leadsBackIn g fs.vfs d
  | .write id _ _ | .setattr id (some _) => leadsBackIn g fs.vfs id
  | .setattr _ none => true
  | .remove d filename =>
    let v := (fs.vfs.ensureDirPopulated g d).2
    leadsBackIn g fs.vfs d && v.childMap (d, fromUtf8Lossy filename) == v.liveChild d (fromUtf8Lossy filename)
  | .rename fd _ td _ => leadsBackIn g fs.vfs fd && leadsBackIn g fs.vfs td

def allFoundIn (g : GitEngine) : Fs → List (Nat × NfsOp) → Bool
  | _, [] => true
  | fs, (now, op) :: ops => foundAgainIn g fs op && (fs.handle g now none op).all fun h => allFoundIn g h.fs ops

theorem foundAgain_of_in {op : NfsOp} (h : foundAgainIn g fs op = true) : fs.FoundAgain g op := by
  cases op with
  | create d _ => exact fun _ _ _ => leadsBack_of_in h
  | createExclusive d _ => exact fun _ _ _ => leadsBack_of_in h
  | mkdir d _ => exact fun _ _ _ => leadsBack_of_in h
  | write id _ _ => exact fun _ _ _ => leadsBack_of_in h
  | setattr id size =>
    cases size with
    | none => trivial
    | some size => exact fun _ _ _ => leadsBack_of_in h
  | remove d filename =>
    intro v i hpop hi
    obtain ⟨hback, hlive⟩ := Bool.and_eq_true_iff.mp h
    rw [hpop, beq_iff_eq, hi] at hlive
    exact ⟨leadsBack_of_in hback, hlive.symm⟩
  | rename fd _ td _ =>
    intro v v' i _ _ _
    obtain ⟨hfrom, hto⟩ := Bool.and_eq_true_iff.mp h
    exact ⟨leadsBack_of_in hfrom, leadsBack_of_in hto⟩

theorem allFound_of_in {ops : List (Nat × NfsOp)} (h : allFoundIn g fs ops = true) : fs.AllFound g ops := by
  induction ops generalizing fs with
  | nil => trivial
  | cons op ops ih =>
    obtain ⟨hfound, hrest⟩ := Bool.and_eq_true_iff.mp h
    refine ⟨foundAgain_of_in hfound, fun hd heq => ih ?_⟩
    rwa [heq, Option.all_some] at hrest

end Fs

/-! ### A file is written and another one removed -/

/-- `prost` on entries without a number and a time: an empty header, a file that is made, a write at its beginning and
a removal, of short paths. -/
def encodeShort (e : WalEntry) : Bytes :=
  match e.payload with
  | some (.header _) => [26, 0]
  | some (.createFile create) =>
    let path := asBytes create.path
    [34, UInt8.ofNat (path.length + 6), 10, UInt8.ofNat path.length] ++ path ++ [24, 164, 131, 2]
  | some (.write path _ data) =>
    let path := asBytes path
    [50, UInt8.ofNat (path.length + data.length + 4), 10, UInt8.ofNat path.length] ++ path ++
      [26, UInt8.ofNat data.length] ++ data
  | some (.remove path) =>
    let path := asBytes path
    [66, UInt8.ofNat (path.length + 2), 10, UInt8.ofNat path.length] ++ path
  | _ => []

def decodeShort : Bytes → Option WalEntry
  | [26, 0] => some ⟨0, 0, some (.header ⟨[], [], [], [], 0, 0⟩)⟩
  | 34 :: _ :: 10 :: n :: rest =>
    some ⟨0, 0, some (.createFile ⟨fromUtf8Lossy (rest.take n.toNat), InodeType.regularFile.toI32, 0o100644⟩)⟩
  | 50 :: _ :: 10 :: n :: rest =>
    some ⟨0, 0, some (.write (fromUtf8Lossy (rest.take n.toNat)) 0 (rest.drop (n.toNat + 2)))⟩
  | 66 :: _ :: 10 :: _ :: rest => some ⟨0, 0, some (.remove (fromUtf8Lossy rest))⟩
  | _ => none

def shortRun : List (Nat × NfsOp) :=
  [(0, .createExclusive 1 [0x6e]), (0, .write 4 0 [0x68, 0x69]), (0, .remove 1 [0x61, 0x2e, 0x74, 0x78, 0x74])]

def shortStart : WalEntry := ⟨0, 0, some (.header ⟨[], [], [], [], 0, 0⟩)⟩

def shortLog : List WalPayload :=
  [.createFile ⟨['n'], InodeType.regularFile.toI32, 0o100644⟩, .write ['n'] 0 [0x68, 0x69], .remove "a.txt".toList]

def shortEntries : List WalEntry := shortLog.map fun payload => ⟨0, 0, some payload⟩

theorem shortRun_logs : ((Fs.new sampleTopOid).serveAll sampleTable shortRun).map Prod.snd = some shortLog := by
  decide +kernel

theorem shortRun_found : (Fs.new sampleTopOid).AllFound sampleTable shortRun := Fs.allFound_of_in (by decide +kernel)

/-- The log is cut off inside the removal. -/
theorem crash_shows_beginning_short :
    ∃ fs, (Fs.new sampleTopOid).serveAll sampleTable shortRun = some (fs, shortLog) ∧
      ∃ done rest fs₁ log₁ r, shortRun = done ++ rest ∧
        (Fs.new sampleTopOid).serveAll sampleTable done = some (fs₁, log₁) ∧
        (∀ n ≤ shortEntries.length,
          ((shortStart :: shortEntries.take n).flatMap (WalEntry.encodeFramed encodeShort)).length ≤ 42 →
            n ≤ log₁.length) ∧
        replayWalEntries sampleTable (WalEntry.decodeAllFramed decodeShort
          (((shortStart :: shortEntries).flatMap (WalEntry.encodeFramed encodeShort)).take 42)).1
            (.new sampleTopOid) = .ok r ∧
        ∀ path, r.fs.foundAt sampleTable path = fs₁.foundAt sampleTable path := by
  obtain ⟨⟨fs, log⟩, hrun, hlog⟩ := Option.map_eq_some_iff.mp shortRun_logs
  obtain rfl : log = shortLog := hlog
  exact ⟨fs, hrun, Fs.crash_shows_beginning encodeShort decodeShort sampleTable sampleTopOid shortRun fs shortLog
    shortStart shortEntries (by decide) shortRun_found hrun ⟨_, rfl⟩ rfl (by decide) (by decide) 42⟩

example : (WalEntry.decodeAllFramed decodeShort
    (((shortStart :: shortEntries).flatMap (WalEntry.encodeFramed encodeShort)).take 42)).1 =
      shortStart :: shortEntries.take 2 := by decide +kernel

end GitNfs
