import GitNfs.Lib.Run
import GitNfs.Lib.SingleFlight
import GitNfs.Text

/-! # The tasks that want one block

`BlockCache::get_or_fetch_block` for one key, one operation of one task at a time. A `Notify` is a number, and
wakes the tasks whose future was made before.
-/

namespace GitNfs.BlockFlight

open SingleFlight (Role Table Move Single Served AllServed Reaches Stranded)

inductive Pc where
  | idle
  | memory
  | disk
  /-- Before the locked look at `in_flight`. -/
  | join
  | taken (n : Nat)
  | waiting (n : Nat)
  | memoryAgain
  | diskAgain
  | fetch
  | store (data : Bytes)
  | remember (data : Bytes)
  | leave (res : Option Bytes)
  | signal (n : Option Nat) (res : Option Bytes)
  | done (res : Option Bytes)
  deriving DecidableEq, Repr

structure Flight where
  /-- The block in memory and on disk. -/
  memory : Option Bytes
  disk : Option Bytes
  inFlight : Option Nat
  fresh : Nat
  task : Nat → Pc

inductive Action where
  | request (t : Nat)
  /-- The next operation of a task. A file operation may fail. -/
  | advance (t : Nat) (works : Bool)
  | respond (t : Nat) (res : Option Bytes)
  /-- The blocks of other keys drive this one out of the memory. -/
  | evict

namespace Flight

def start (memory disk : Option Bytes) : Flight := ⟨memory, disk, none, 0, fun _ => .idle⟩

def goto (s : Flight) (t : Nat) (pc : Pc) : Flight := { s with task := Function.update s.task t pc }

def notifyWaiters (s : Flight) (n : Nat) : Flight :=
  { s with task := fun u => if s.task u = .waiting n then .memoryAgain else s.task u }

def advance (s : Flight) (t : Nat) (works : Bool) : Pc → Option Flight
  | .memory =>
    match s.memory with
    | some data => some (s.goto t (.done (some data)))
    | none => some (s.goto t .disk)
  | .disk =>
    match if works then s.disk else none with
    | some data => some ({ s with memory := some data }.goto t (.done (some data)))
    | none => some (s.goto t .join)
  | .join =>
    match s.inFlight with
    | some n => some (s.goto t (.taken n))
    | none => some ({ s with inFlight := some s.fresh, fresh := s.fresh + 1 }.goto t .fetch)
  | .taken n => some (s.goto t (.waiting n))
  | .memoryAgain =>
    match s.memory with
    | some data => some (s.goto t (.done (some data)))
    | none => some (s.goto t .diskAgain)
  | .diskAgain =>
    match if works then s.disk else none with
    | some data => some ({ s with memory := some data }.goto t (.done (some data)))
    | none => some (s.goto t .join)
  | .store data => some ({ s with disk := if works then some data else s.disk }.goto t (.remember data))
  | .remember data => some ({ s with memory := some data }.goto t (.leave (some data)))
  | .leave res => some ({ s with inFlight := none }.goto t (.signal s.inFlight res))
  | .signal (some n) res => some ((s.notifyWaiters n).goto t (.done res))
  | .signal none res => some (s.goto t (.done res))
  | .idle => none
  | .waiting _ => none
  | .fetch => none
  | .done _ => none

def step (s : Flight) : Action → Option Flight
  | .request t => if s.task t = .idle then some (s.goto t .memory) else none
  | .advance t works => s.advance t works (s.task t)
  | .respond t res =>
    if s.task t = .fetch then
      match res with
      | some data => some (s.goto t (.store data))
      | none => some (s.goto t (.leave none))
    else none
  | .evict => some { s with memory := none }

/-- The designated fetcher, from its registration to the locked removal. -/
def Fetcher (s : Flight) (t : Nat) : Prop :=
  match s.task t with
  | .fetch => True
  | .store _ => True
  | .remember _ => True
  | .leave _ => True
  | _ => False

end Flight

/-! ## The table of the tasks -/

def Pc.role : Pc → Role
  | .taken n => .taken n
  | .waiting n => .waiting n
  | .fetch => .fetching
  | .store _ => .fetching
  | .remember _ => .fetching
  | .leave _ => .fetching
  | .signal (some n) _ => .signalling n
  | _ => .out

namespace Flight

def table (s : Flight) : Table Nat := .of Pc.role s.inFlight s.fresh s.task

theorem table_role (s : Flight) (t : Nat) : s.table.role t = (s.task t).role := rfl

theorem table_goto (s : Flight) (t : Nat) (pc : Pc) : (s.goto t pc).table = s.table.become t pc.role :=
  Table.of_update Pc.role s.inFlight s.fresh s.task t pc

theorem table_goto_same {s : Flight} {t : Nat} {pc : Pc} (h : pc.role = (s.task t).role) :
    (s.goto t pc).table = s.table := Table.of_update_same h

theorem role_waiting_iff {n : Nat} (pc : Pc) : pc.role = .waiting n ↔ pc = .waiting n := by
  unfold Pc.role
  constructor
  · intro h
    split at h <;> simp_all
  · rintro rfl
    rfl

theorem table_notifyWaiters (s : Flight) (n : Nat) : (s.notifyWaiters n).table = s.table.wake n :=
  Table.of_wake role_waiting_iff rfl

theorem fetcher_iff {s : Flight} {t : Nat} : s.Fetcher t ↔ s.table.role t = .fetching := by
  rw [table_role]
  unfold Fetcher
  cases s.task t with
  | signal w res => cases w <;> simp [Pc.role]
  | _ => simp [Pc.role]

/-- What one operation of a task is in the table. -/
theorem step_move {s s' : Flight} {a : Action} (hs : Single s.table) (hstep : s.step a = some s') :
    Move s.table s'.table := by
  have hstay : ∀ u : Flight, u.table = s.table → Move s.table u.table := by
    intro u hu
    rw [hu]
    exact .stay _
  cases a with
  | request t =>
    unfold step at hstep
    dsimp only at hstep
    split at hstep
    · rename_i ht
      obtain rfl := Option.some.inj hstep
      exact hstay _ (table_goto_same (by rw [ht]; rfl))
    · cases hstep
  | evict =>
    obtain rfl := Option.some.inj hstep
    exact hstay _ rfl
  | respond t res =>
    unfold step at hstep
    dsimp only at hstep
    split at hstep
    · rename_i ht
      cases res <;> obtain rfl := Option.some.inj hstep <;>
        exact hstay _ (table_goto_same (by rw [ht]; rfl))
    · cases hstep
  | advance t works =>
    unfold step at hstep
    dsimp only at hstep
    cases hpc : s.task t with
    | idle => simp [hpc, advance] at hstep
    | waiting n => simp [hpc, advance] at hstep
    | fetch => simp [hpc, advance] at hstep
    | done res => simp [hpc, advance] at hstep
    | memory | memoryAgain =>
      rw [hpc] at hstep
      unfold advance at hstep
      dsimp only at hstep
      split at hstep <;> obtain rfl := Option.some.inj hstep <;>
        exact hstay _ (table_goto_same (by rw [hpc]; rfl))
    | disk | diskAgain =>
      rw [hpc] at hstep
      unfold advance at hstep
      dsimp only at hstep
      split at hstep <;> obtain rfl := Option.some.inj hstep
      · exact hstay _ (table_goto_same (s := { s with memory := _ }) (by rw [hpc]; rfl))
      · exact hstay _ (table_goto_same (by rw [hpc]; rfl))
    | join =>
      have ht : s.table.role t = .out := by
        rw [table_role, hpc]
        rfl
      rw [hpc] at hstep
      unfold advance at hstep
      dsimp only at hstep
      split at hstep <;> obtain rfl := Option.some.inj hstep
      · rename_i n hentry
        rw [table_goto]
        exact .take _ t n ht hentry
      · rename_i hnone
        rw [table_goto]
        exact .register _ t ht hnone
    | taken n =>
      have ht : s.table.role t = .taken n := by
        rw [table_role, hpc]
        rfl
      rw [hpc] at hstep
      obtain rfl := Option.some.inj hstep
      rw [table_goto]
      exact .listen _ t n ht
    | store data =>
      rw [hpc] at hstep
      obtain rfl := Option.some.inj hstep
      exact hstay _ (table_goto_same (s := { s with disk := _ }) (by rw [hpc]; rfl))
    | remember data =>
      rw [hpc] at hstep
      obtain rfl := Option.some.inj hstep
      exact hstay _ (table_goto_same (s := { s with memory := _ }) (by rw [hpc]; rfl))
    | leave res =>
      have ht : s.table.role t = .fetching := by
        rw [table_role, hpc]
        rfl
      rw [hpc] at hstep
      obtain rfl := Option.some.inj hstep
      -- the fetcher finds the entry that it made
      obtain ⟨n, hentry⟩ := Option.isSome_iff_exists.mp (hs.entry.mpr ⟨t, ht⟩)
      have hin : s.inFlight = some n := hentry
      rw [table_goto, hin]
      exact .leave _ t n ht hentry
    | signal w res =>
      rw [hpc] at hstep
      cases w with
      | none =>
        obtain rfl := Option.some.inj hstep
        exact hstay _ (table_goto_same (by rw [hpc]; rfl))
      | some n =>
        have ht : s.table.role t = .signalling n := by
          rw [table_role, hpc]
          rfl
        obtain rfl := Option.some.inj hstep
        rw [table_goto, table_notifyWaiters]
        exact .signal _ t n ht

/-! ## Who is woken -/

/-- `notify_waiters` is called on a `Notify` while every task that has it listens. -/
def AllListen (s : Flight) : Action → Prop
  | .advance t _ => ∀ n res, s.task t = .signal (some n) res → ∀ u, s.task u ≠ .taken n
  | _ => True

/-- The operations of a task move no other task that does not listen. -/
theorem advance_others {s s' : Flight} {t u : Nat} {works : Bool} {pc : Pc} (hstep : s.advance t works pc = some s')
    (hu : u ≠ t) (hwaiting : ∀ n, s.task u ≠ .waiting n) : s'.task u = s.task u := by
  have hgoto : ∀ (v : Flight) (pc : Pc), v.task u = s.task u → (v.goto t pc).task u = s.task u := by
    intro v pc hv
    exact (Function.update_of_ne hu ..).trans hv
  unfold advance at hstep
  split at hstep
  case h_10 =>
    obtain rfl := Option.some.inj hstep
    exact hgoto _ _ (if_neg (hwaiting _))
  all_goals first
    | obtain rfl := Option.some.inj hstep
      exact hgoto _ _ rfl
    | split at hstep <;> obtain rfl := Option.some.inj hstep <;> exact hgoto _ _ rfl
    | cases hstep

theorem step_reaches {s s' : Flight} {a : Action} (hall : s.AllListen a) (hstep : s.step a = some s') :
    Reaches s.table s'.table := by
  intro t n ht hmoved u hu
  rw [table_role] at ht hu
  have hsignal : ∃ res, s.task t = .signal (some n) res := by
    unfold Pc.role at ht
    split at ht <;> simp_all
  have htaken : s.task u = .taken n := by
    unfold Pc.role at hu
    split at hu <;> simp_all
  obtain ⟨res, hsignal⟩ := hsignal
  have hkept : s'.task t ≠ s.task t := by
    intro heq
    rw [table_role, heq] at hmoved
    exact hmoved ht
  cases a with
  | request v =>
    unfold step at hstep
    dsimp only at hstep
    split at hstep
    · rename_i hv
      obtain rfl := Option.some.inj hstep
      apply hkept
      exact Function.update_of_ne (by rintro rfl; rw [hsignal] at hv; cases hv) ..
    · cases hstep
  | respond v res' =>
    unfold step at hstep
    dsimp only at hstep
    split at hstep
    · rename_i hv
      have hne : t ≠ v := by
        rintro rfl
        rw [hsignal] at hv
        cases hv
      cases res' <;> obtain rfl := Option.some.inj hstep <;>
        exact hkept (Function.update_of_ne hne ..)
    · cases hstep
  | evict =>
    obtain rfl := Option.some.inj hstep
    exact hkept rfl
  | advance v works =>
    by_cases hv : t = v
    · subst hv
      exact hall n res hsignal u htaken
    · exact hkept (advance_others hstep hv (by simp [hsignal]))

/-! ## Runs -/

theorem start_single (memory disk : Option Bytes) : Single (start memory disk).table :=
  ⟨fun _ _ h => (by cases h), by simp [table, start, Table.of, Pc.role]⟩

theorem start_allServed (memory disk : Option Bytes) : AllServed (start memory disk).table := by
  rintro u n (h | h) <;> cases h

theorem run_single {memory disk : Option Bytes} {as : List Action} {s : Flight}
    (hrun : Run.run step (start memory disk) as = some s) : Single s.table := by
  refine Run.invariant (I := fun s => Single s.table) ?_ (Run.meets_true step _ as) hrun (start_single memory disk)
  intro s a s' hs _ hstep
  exact (step_move hs hstep).single hs

theorem run_allServed {memory disk : Option Bytes} {as : List Action} {s : Flight}
    (hrun : Run.run step (start memory disk) as = some s) (hall : Run.Meets step AllListen (start memory disk) as) :
    AllServed s.table := by
  have hboth : Single s.table ∧ AllServed s.table := by
    refine Run.invariant (I := fun s => Single s.table ∧ AllServed s.table) ?_ hall hrun
      ⟨start_single memory disk, start_allServed memory disk⟩
    rintro s a s' ⟨hs, hserved⟩ ha hstep
    have hmove := step_move hs hstep
    exact ⟨hmove.single hs, hmove.allServed hs hserved (step_reaches ha hstep)⟩
  exact hboth.2

/-- A fetcher of this `Notify` that did not call `notify_waiters` on it yet. -/
def HasFetcher (s : Flight) (n : Nat) : Prop :=
  (s.inFlight = some n ∧ ∃ f, s.Fetcher f) ∨ ∃ f res, s.task f = .signal (some n) res

theorem hasFetcher_iff {s : Flight} {n : Nat} : s.HasFetcher n ↔ Served s.table n := by
  unfold HasFetcher Served
  simp only [fetcher_iff]
  refine or_congr Iff.rfl (exists_congr fun f => ?_)
  rw [table_role]
  constructor
  · rintro ⟨res, hf⟩
    rw [hf]
    rfl
  · intro hf
    unfold Pc.role at hf
    split at hf <;> simp_all

/-- In every run at most one task is the fetcher. If every task that has a `Notify` listens to it when it is
signalled, then every task that waits on one has its fetcher. -/
theorem waiters_have_fetchers {memory disk : Option Bytes} {as : List Action} {s : Flight}
    (hrun : Run.run step (start memory disk) as = some s) :
    (∀ t u, s.Fetcher t → s.Fetcher u → t = u) ∧
      (Run.Meets step AllListen (start memory disk) as → ∀ t n, s.task t = .waiting n → s.HasFetcher n) := by
  constructor
  · intro t u ht hu
    exact (run_single hrun).one t u (fetcher_iff.mp ht) (fetcher_iff.mp hu)
  · intro hall t n ht
    refine hasFetcher_iff.mpr (run_allServed hrun hall t n (.inr ?_))
    rw [table_role, ht]
    rfl

/-- No signal is given at all. -/
def quiet (s : Flight) : Action → Bool
  | .advance t _ =>
    match s.task t with
    | .signal _ _ => false
    | _ => true
  | _ => true

theorem allListen_of_quiet (s : Flight) (a : Action) (h : s.quiet a = true) : s.AllListen a := by
  cases a with
  | advance t works =>
    intro n res ht
    unfold quiet at h
    simp [ht] at h
  | _ => trivial

/-- One task fetches and another one comes to wait for it. -/
def twoTasks : List Action :=
  [.request 0, .advance 0 true, .advance 0 true, .advance 0 true,
    .request 1, .advance 1 true, .advance 1 true, .advance 1 true]

theorem waiters_have_fetchers_two :
    ∃ s, Run.run step (start none none) (twoTasks ++ [.advance 1 true]) = some s ∧ s.task 1 = .waiting 0 ∧
      s.HasFetcher 0 := by
  refine ⟨_, rfl, rfl, ?_⟩
  have hquiet : Run.Meets step AllListen (start none none) (twoTasks ++ [.advance 1 true]) :=
    Run.meets_of_check allListen_of_quiet (by decide)
  exact (waiters_have_fetchers rfl).2 hquiet 1 0 rfl

/-! ## A signal that is lost -/

/-- A task that waits for a signal that was given waits in every later state. -/
theorem stranded_forever {s s' : Flight} {u n : Nat} {as : List Action} (hs : Single s.table)
    (h : Stranded u n s.table) (hrun : Run.run step s as = some s') : s'.task u = .waiting n := by
  have hboth : Single s'.table ∧ Stranded u n s'.table := by
    refine Run.invariant (I := fun s => Single s.table ∧ Stranded u n s.table) ?_
      (Run.meets_true step s as) hrun ⟨hs, h⟩
    rintro v a v' ⟨hv, hstranded⟩ _ hstep
    have hmove := step_move hv hstep
    exact ⟨hmove.single hv, hmove.stranded hstranded⟩
  exact (role_waiting_iff _).mp hboth.2.waits

/-- The fetcher is through before the other task listens. -/
def lostSignal : List Action :=
  twoTasks ++ [.respond 0 (some [7]), .advance 0 true, .advance 0 true, .advance 0 true, .advance 0 true,
    .advance 1 true]

theorem waiter_is_stranded :
    ∃ s, Run.run step (start none none) lostSignal = some s ∧ s.task 1 = .waiting 0 ∧ ¬ s.HasFetcher 0 ∧
      ∀ as s', Run.run step s as = some s' → s'.task 1 = .waiting 0 := by
  obtain ⟨s, hrun, hwaits, hentry, hfresh, hothers⟩ : ∃ s, Run.run step (start none none) lostSignal = some s ∧
      s.task 1 = .waiting 0 ∧ s.inFlight = none ∧ s.fresh = 1 ∧
      ∀ f, f ≠ 1 → s.task f = .done (some [7]) ∨ s.task f = .idle := by
    refine ⟨_, rfl, rfl, rfl, rfl, fun f hf => ?_⟩
    by_cases hf0 : f = 0
    · subst hf0
      exact .inl rfl
    · simp [goto, notifyWaiters, Function.update_apply, hf, hf0, start]
  have hstranded : Stranded 1 0 s.table := by
    refine ⟨by rw [table_role, hwaits]; rfl, ?_, ?_, fun f hf => ?_⟩
    · rw [show s.table.fresh = 1 from hfresh]
      exact Nat.one_pos
    · rw [show s.table.entry = none from hentry]
      simp
    · rw [table_role] at hf
      by_cases hf1 : f = 1
      · rw [hf1, hwaits] at hf
        cases hf
      · rcases hothers f hf1 with h | h <;> rw [h] at hf <;> cases hf
  exact ⟨s, hrun, hwaits, fun h => hstranded.not_served (hasFetcher_iff.mp h),
    fun as s' hlater => stranded_forever (run_single hrun) hstranded hlater⟩

end Flight

end GitNfs.BlockFlight
