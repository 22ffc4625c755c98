import GitNfs.Lib.Run
import GitNfs.Lib.SingleFlight
import GitNfs.Text

/-! # The tasks that want one blob

`GitEngine::get_blob_arc` for one id, one operation of one task at a time. A `Notify` is a number. Whose entry
an entry is, and whether a fetcher made one, stands beside it and is not looked at by the code.
-/

namespace GitNfs.BlobFlight

open SingleFlight (Role Table Move Single)

/-- How far a fetcher is, up to the locked removal. -/
inductive Stage where
  | source
  | store (data : Bytes)
  | storeDisk (data : Bytes)
  /-- The pack does not have the blob, which may be in memory by now. -/
  | lookup
  | leave (res : Option Bytes)
  deriving DecidableEq, Repr

inductive Pc where
  | idle
  | memory
  | disk
  /-- Before the locked look at `in_flight`. -/
  | join
  | taken (n : Nat)
  | waiting (n : Nat)
  | memoryAgain
  | diskAgain
  | fetch (registered : Bool) (stage : Stage)
  | signal (n : Option Nat) (res : Option Bytes)
  | done (res : Option Bytes)
  deriving DecidableEq, Repr

structure Entry where
  notify : Nat
  owner : Nat
  deriving DecidableEq, Repr

structure Flight where
  /-- The blob in memory and on disk. -/
  memory : Option Bytes
  disk : Option Bytes
  inFlight : Option Entry
  fresh : Nat
  task : Nat → Pc

/-- What the source answers: an error, the blob, or a pack that does not have it. -/
inductive Response where
  | failed
  | blob (data : Bytes)
  | absent

inductive Action where
  | request (t : Nat)
  /-- The next operation of a task. A file operation may fail. -/
  | advance (t : Nat) (works : Bool)
  | respond (t : Nat) (r : Response)
  /-- The caches change through the calls for other blobs. -/
  | others (memory disk : Option Bytes)

namespace Flight

def start (memory disk : Option Bytes) : Flight := ⟨memory, disk, none, 0, fun _ => .idle⟩

def goto (s : Flight) (t : Nat) (pc : Pc) : Flight := { s with task := Function.update s.task t pc }

def notifyWaiters (s : Flight) (n : Nat) : Flight :=
  { s with task := fun u => if s.task u = .waiting n then .memoryAgain else s.task u }

def fetchStage (s : Flight) (t : Nat) (works registered : Bool) : Stage → Option Flight
  | .source => none
  | .store data => some ({ s with memory := some data }.goto t (.fetch registered (.storeDisk data)))
  | .storeDisk data =>
    some ({ s with disk := if works then some data else s.disk }.goto t (.fetch registered (.leave (some data))))
  | .lookup => some (s.goto t (.fetch registered (.leave s.memory)))
  | .leave res => some ({ s with inFlight := none }.goto t (.signal (s.inFlight.map Entry.notify) res))

def advance (s : Flight) (t : Nat) (works : Bool) : Pc → Option Flight
  | .memory =>
    match s.memory with
    | some data => some (s.goto t (.done (some data)))
    | none => some (s.goto t .disk)
  | .disk =>
    match if works then s.disk else none with
    | some data => some ({ s with memory := some data }.goto t (.done (some data)))
    | none => some (s.goto t .join)
  | .join =>
    match s.inFlight with
    | some e => some (s.goto t (.taken e.notify))
    | none =>
      some ({ s with inFlight := some ⟨s.fresh, t⟩, fresh := s.fresh + 1 }.goto t (.fetch true .source))
  | .taken n => some (s.goto t (.waiting n))
  | .memoryAgain =>
    match s.memory with
    | some data => some (s.goto t (.done (some data)))
    | none => some (s.goto t .diskAgain)
  | .diskAgain =>
    match if works then s.disk else none with
    | some data => some ({ s with memory := some data }.goto t (.done (some data)))
    -- it goes on to fetch, and does not look at `in_flight` again
    | none => some (s.goto t (.fetch false .source))
  | .fetch registered stage => s.fetchStage t works registered stage
  | .signal (some n) res => some ((s.notifyWaiters n).goto t (.done res))
  | .signal none res => some (s.goto t (.done res))
  | .idle => none
  | .waiting _ => none
  | .done _ => none

def respond (s : Flight) (t : Nat) (registered : Bool) : Response → Flight
  | .failed => s.goto t (.fetch registered (.leave none))
  | .blob data => s.goto t (.fetch registered (.store data))
  | .absent => s.goto t (.fetch registered .lookup)

def step (s : Flight) : Action → Option Flight
  | .request t => if s.task t = .idle then some (s.goto t .memory) else none
  | .advance t works => s.advance t works (s.task t)
  | .respond t r =>
    match s.task t with
    | .fetch registered .source => some (s.respond t registered r)
    | _ => none
  | .others memory disk => some { s with memory, disk }

/-- From the start of the fetch to the locked removal. -/
def Fetcher (s : Flight) (t : Nat) : Prop := ∃ registered stage, s.task t = .fetch registered stage

end Flight

/-! ## The table of the tasks -/

def Pc.role : Pc → Role
  | .taken n => .taken n
  | .waiting n => .waiting n
  | .fetch true _ => .fetching
  | .signal (some n) _ => .signalling n
  | _ => .out

namespace Flight

def table (s : Flight) : Table Nat := .of Pc.role (s.inFlight.map Entry.notify) s.fresh s.task

theorem table_role (s : Flight) (t : Nat) : s.table.role t = (s.task t).role := rfl

theorem table_goto (s : Flight) (t : Nat) (pc : Pc) : (s.goto t pc).table = s.table.become t pc.role :=
  Table.of_update Pc.role (s.inFlight.map Entry.notify) s.fresh s.task t pc

theorem table_goto_same {s : Flight} {t : Nat} {pc : Pc} (h : pc.role = (s.task t).role) :
    (s.goto t pc).table = s.table := Table.of_update_same h

theorem role_waiting_iff {n : Nat} (pc : Pc) : pc.role = .waiting n ↔ pc = .waiting n := by
  unfold Pc.role
  constructor
  · intro h
    split at h <;> simp_all
  · rintro rfl
    rfl

theorem table_notifyWaiters (s : Flight) (n : Nat) : (s.notifyWaiters n).table = s.table.wake n :=
  Table.of_wake role_waiting_iff rfl

theorem role_fetching_iff {pc : Pc} : pc.role = .fetching ↔ ∃ stage, pc = .fetch true stage := by
  unfold Pc.role
  constructor
  · intro h
    split at h <;> simp_all
  · rintro ⟨stage, rfl⟩
    rfl

/-! ## The invariant -/

/-- A task that is woken finds the blob in one of the caches. -/
def FindsBlob (s : Flight) : Action → Prop
  | .advance t works => s.task t = .diskAgain → works = true ∧ s.disk.isSome
  | _ => True

/-- Whoever fetches made an entry, and whoever made the entry fetches. -/
structure Owned (s : Flight) : Prop where
  single : Single s.table
  registered : ∀ t stage, s.task t ≠ .fetch false stage
  owner : ∀ e, s.inFlight = some e → s.table.role e.owner = .fetching

theorem start_owned (memory disk : Option Bytes) : (start memory disk).Owned :=
  ⟨⟨fun _ _ h => (by cases h), by simp [table, start, Table.of, Pc.role]⟩, fun _ _ h => (by cases h),
    fun _ h => (by cases h)⟩

theorem Owned.caches {s : Flight} (h : s.Owned) (memory disk : Option Bytes) :
    Owned { s with memory, disk } := ⟨h.single, h.registered, h.owner⟩

theorem registered_goto {s : Flight} (h : ∀ t stage, s.task t ≠ .fetch false stage) (t : Nat) {pc : Pc}
    (hpc : ∀ stage, pc ≠ .fetch false stage) : ∀ u stage, (s.goto t pc).task u ≠ .fetch false stage := by
  intro u stage
  unfold goto
  simp only [Function.update_apply]
  split
  · exact hpc stage
  · exact h u stage

/-- A step that does not change what the task is in the table. -/
theorem Owned.goto {s : Flight} (h : s.Owned) {t : Nat} {pc : Pc} (hrole : pc.role = (s.task t).role)
    (hpc : ∀ stage, pc ≠ .fetch false stage) : (s.goto t pc).Owned := by
  refine ⟨?_, registered_goto h.registered t hpc, ?_⟩
  · rw [table_goto_same hrole]
    exact h.single
  · rw [table_goto_same hrole]
    exact h.owner

/-- A task that is out takes what is in the table, or listens to it. -/
theorem Owned.become {s : Flight} (h : s.Owned) {t : Nat} {pc : Pc}
    (hmove : Move s.table (s.table.become t pc.role)) (ht : s.table.role t ≠ .fetching)
    (hpc : ∀ stage, pc ≠ .fetch false stage) : (s.goto t pc).Owned := by
  refine ⟨?_, registered_goto h.registered t hpc, ?_⟩
  · rw [table_goto]
    exact hmove.single h.single
  · intro e he
    have howner := h.owner e he
    have hne : e.owner ≠ t := by
      intro heq
      exact ht (heq ▸ howner)
    rw [table_goto, Table.become_of_ne hne]
    exact howner

theorem Owned.register {s : Flight} (h : s.Owned) {t : Nat} (hnone : s.inFlight = none) :
    Owned ({ s with inFlight := some ⟨s.fresh, t⟩, fresh := s.fresh + 1 }.goto t (.fetch true .source)) := by
  refine ⟨?_, registered_goto h.registered t (by simp), ?_⟩
  · rw [table_goto]
    have hentry : s.table.entry = none := by
      unfold table Table.of
      rw [hnone]
      rfl
    exact h.single.register t hentry
  · intro e he
    obtain rfl := Option.some.inj he
    rw [table_goto]
    exact Table.become_self ..

theorem Owned.leave {s : Flight} (h : s.Owned) {t : Nat} {res : Option Bytes}
    (ht : s.task t = .fetch true (.leave res)) :
    Owned ({ s with inFlight := none }.goto t (.signal (s.inFlight.map Entry.notify) res)) := by
  have hrole : s.table.role t = .fetching := by
    rw [table_role, ht]
    rfl
  refine ⟨?_, registered_goto h.registered t (by simp), fun _ he => by cases he⟩
  obtain ⟨n, hn⟩ := Option.isSome_iff_exists.mp (h.single.entry.mpr ⟨t, hrole⟩)
  have hin : s.inFlight.map Entry.notify = some n := hn
  rw [hin, table_goto]
  exact h.single.leave hrole n

theorem Owned.signal {s : Flight} (h : s.Owned) {t n : Nat} {res : Option Bytes}
    (ht : s.task t = .signal (some n) res) : ((s.notifyWaiters n).goto t (.done res)).Owned := by
  have hrole : s.table.role t = .signalling n := by
    rw [table_role, ht]
    rfl
  have hwoken : (s.notifyWaiters n).table.role t = .signalling n := by
    rw [table_notifyWaiters]
    exact (Table.role_wake_iff (by simp) (by simp) t).mpr hrole
  refine ⟨?_, registered_goto ?_ t (by simp), ?_⟩
  · rw [table_goto, table_notifyWaiters]
    exact (Move.signal s.table t n hrole).single h.single
  · intro u stage
    unfold notifyWaiters
    dsimp only
    split
    · simp
    · exact h.registered u stage
  · intro e he
    have howner := h.owner e he
    rw [table_goto, Table.role_become_iff (by rw [hwoken]; simp) (by simp [Pc.role]), table_notifyWaiters,
      Table.role_wake_iff (by simp) (by simp)]
    exact howner

theorem Owned.advance {s s' : Flight} (h : s.Owned) {t : Nat} {works : Bool}
    (hfinds : s.task t = .diskAgain → works = true ∧ s.disk.isSome)
    (hstep : s.advance t works (s.task t) = some s') : s'.Owned := by
  have hout : (s.task t).role = .out → s.table.role t ≠ .fetching := by
    intro hrole
    rw [table_role, hrole]
    simp
  cases hpc : s.task t with
  | idle => simp [hpc, Flight.advance] at hstep
  | waiting n => simp [hpc, Flight.advance] at hstep
  | done res => simp [hpc, Flight.advance] at hstep
  | memory | memoryAgain =>
    rw [hpc] at hstep
    unfold Flight.advance at hstep
    dsimp only at hstep
    split at hstep <;> obtain rfl := Option.some.inj hstep <;>
      exact h.goto (by rw [hpc]; rfl) (by simp)
  | disk =>
    rw [hpc] at hstep
    unfold Flight.advance at hstep
    dsimp only at hstep
    split at hstep <;> obtain rfl := Option.some.inj hstep
    · exact (h.caches _ _).goto (by rw [show (_ : Flight).task t = _ from hpc]; rfl) (by simp)
    · exact h.goto (by rw [hpc]; rfl) (by simp)
  | diskAgain =>
    obtain ⟨rfl, hdisk⟩ := hfinds hpc
    obtain ⟨data, hdata⟩ := Option.isSome_iff_exists.mp hdisk
    rw [hpc] at hstep
    unfold Flight.advance at hstep
    simp only [if_true, hdata] at hstep
    obtain rfl := Option.some.inj hstep
    exact (h.caches _ _).goto (by rw [show (_ : Flight).task t = _ from hpc]; rfl) (by simp)
  | join =>
    have ht : s.table.role t = .out := by
      rw [table_role, hpc]
      rfl
    rw [hpc] at hstep
    unfold Flight.advance at hstep
    dsimp only at hstep
    split at hstep <;> obtain rfl := Option.some.inj hstep
    · rename_i e he
      have hentry : s.table.entry = some e.notify := by
        unfold table Table.of
        rw [he]
        rfl
      exact h.become (.take _ t e.notify ht hentry) (by simp [ht]) (by simp)
    · rename_i hnone
      exact h.register hnone
  | taken n =>
    have ht : s.table.role t = .taken n := by
      rw [table_role, hpc]
      rfl
    rw [hpc] at hstep
    obtain rfl := Option.some.inj hstep
    exact h.become (.listen _ t n ht) (by simp [ht]) (by simp)
  | fetch registered stage =>
    cases registered with
    | false => exact absurd hpc (h.registered t stage)
    | true =>
      rw [hpc] at hstep
      cases stage with
      | source => cases hstep
      | store data | storeDisk data =>
        obtain rfl := Option.some.inj hstep
        exact (h.caches _ _).goto (by rw [show (_ : Flight).task t = _ from hpc]; rfl) (by simp)
      | lookup =>
        obtain rfl := Option.some.inj hstep
        exact h.goto (by rw [hpc]; rfl) (by simp)
      | leave res =>
        obtain rfl := Option.some.inj hstep
        exact h.leave hpc
  | signal w res =>
    rw [hpc] at hstep
    cases w with
    | none =>
      obtain rfl := Option.some.inj hstep
      exact h.goto (by rw [hpc]; rfl) (by simp)
    | some n =>
      obtain rfl := Option.some.inj hstep
      exact h.signal hpc

theorem Owned.step {s s' : Flight} {a : Action} (h : s.Owned) (hfinds : s.FindsBlob a)
    (hstep : s.step a = some s') : s'.Owned := by
  cases a with
  | request t =>
    unfold Flight.step at hstep
    dsimp only at hstep
    split at hstep
    · rename_i ht
      obtain rfl := Option.some.inj hstep
      exact h.goto (by rw [ht]; rfl) (by simp)
    · cases hstep
  | advance t works => exact h.advance hfinds hstep
  | respond t r =>
    unfold Flight.step at hstep
    dsimp only at hstep
    split at hstep
    · rename_i registered ht
      cases registered with
      | false => exact absurd ht (h.registered t .source)
      | true =>
        obtain rfl := Option.some.inj hstep
        cases r <;> exact h.goto (by rw [ht]; rfl) (by simp)
    · cases hstep
  | others memory disk =>
    obtain rfl := Option.some.inj hstep
    exact h.caches memory disk

/-! ## Runs -/

/-- If every task that is woken finds the blob, then in every state at most one task is between the start of its
fetch and its removal, there is an entry exactly while one is, and it is the entry of that task. -/
theorem blob_fetches_are_single {memory disk : Option Bytes} {as : List Action} {s : Flight}
    (hrun : Run.run step (start memory disk) as = some s) (hfinds : Run.Meets step FindsBlob (start memory disk) as) :
    (∀ t u, s.Fetcher t → s.Fetcher u → t = u) ∧
      ∀ t, s.Fetcher t ↔ ∃ e, s.inFlight = some e ∧ e.owner = t := by
  have howned : s.Owned := by
    refine Run.invariant (I := Owned) ?_ hfinds hrun (start_owned memory disk)
    intro s a s' hs ha hstep
    exact hs.step ha hstep
  have hfetcher : ∀ t, s.Fetcher t ↔ s.table.role t = .fetching := by
    intro t
    rw [table_role, role_fetching_iff]
    constructor
    · rintro ⟨registered, stage, ht⟩
      cases registered with
      | false => exact absurd ht (howned.registered t stage)
      | true => exact ⟨stage, ht⟩
    · rintro ⟨stage, ht⟩
      exact ⟨true, stage, ht⟩
  have hone : ∀ t u, s.Fetcher t → s.Fetcher u → t = u := by
    intro t u ht hu
    exact howned.single.one t u ((hfetcher t).mp ht) ((hfetcher u).mp hu)
  refine ⟨hone, fun t => ⟨fun ht => ?_, ?_⟩⟩
  · obtain ⟨n, hn⟩ := Option.isSome_iff_exists.mp (howned.single.entry.mpr ⟨t, (hfetcher t).mp ht⟩)
    obtain ⟨e, he, -⟩ := Option.map_eq_some_iff.mp (show s.inFlight.map Entry.notify = some n from hn)
    exact ⟨e, he, hone _ _ ((hfetcher _).mpr (howned.owner e he)) ht⟩
  · rintro ⟨e, he, rfl⟩
    exact (hfetcher _).mpr (howned.owner e he)

/-- No task that is woken gets as far as the disk. -/
def noneWoken (s : Flight) : Action → Bool
  | .advance t _ =>
    match s.task t with
    | .diskAgain => false
    | _ => true
  | _ => true

theorem findsBlob_of_noneWoken (s : Flight) (a : Action) (h : s.noneWoken a = true) : s.FindsBlob a := by
  cases a with
  | advance t works =>
    intro ht
    unfold noneWoken at h
    simp [ht] at h
  | _ => trivial

/-- One task comes to fetch, and two others come to wait for it. -/
def threeTasks : List Action :=
  [.request 0, .advance 0 true, .advance 0 true, .advance 0 true,
    .request 1, .advance 1 true, .advance 1 true, .advance 1 true, .advance 1 true,
    .request 2, .advance 2 true, .advance 2 true, .advance 2 true, .advance 2 true]

theorem blob_fetches_are_single_three :
    ∃ s, Run.run step (start none none) threeTasks = some s ∧ s.task 1 = .waiting 0 ∧ s.task 2 = .waiting 0 ∧
      ∀ t, s.Fetcher t ↔ ∃ e, s.inFlight = some e ∧ e.owner = t := by
  refine ⟨_, rfl, rfl, rfl, ?_⟩
  have hfinds : Run.Meets step FindsBlob (start none none) threeTasks :=
    Run.meets_of_check findsBlob_of_noneWoken (by decide)
  exact (blob_fetches_are_single rfl hfinds).2

/-- The fetch fails, and both tasks that waited for it go on to fetch. -/
def failedFetch : List Action :=
  threeTasks ++ [.respond 0 .failed, .advance 0 true, .advance 0 true,
    .advance 1 true, .advance 1 true, .advance 2 true, .advance 2 true]

/-- Another task makes an entry, and one of the two removes it. -/
def removed : List Action :=
  [.request 3, .advance 3 true, .advance 3 true, .advance 3 true, .respond 1 .failed, .advance 1 true]

/-- Two tasks fetch while there is no entry; then a third one fetches, whose entry another one removes. -/
theorem blob_fetches_are_not_single :
    ∃ s, Run.run step (start none none) failedFetch = some s ∧
      s.task 1 = .fetch false .source ∧ s.task 2 = .fetch false .source ∧ s.inFlight = none ∧
      ∃ s', Run.run step s removed = some s' ∧ s'.task 3 = .fetch true .source ∧ s'.inFlight = none := by
  exact ⟨_, rfl, rfl, rfl, rfl, _, rfl, rfl, rfl⟩

end Flight

end GitNfs.BlobFlight
