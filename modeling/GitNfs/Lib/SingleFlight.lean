import Mathlib.Logic.Function.Basic
import Mathlib.Tactic.ByContra

/-! # Single flight

Tasks that want the same thing: the first one makes an entry and fetches, the others take the signal that the
entry holds and wait for it. Taking the signal and listening to it are two steps, and a signal wakes only
those that listen.
-/

namespace SingleFlight

inductive Role where
  | out
  | taken (n : Nat)
  | waiting (n : Nat)
  | fetching
  /-- The entry is gone, and the signal is not given yet. -/
  | signalling (n : Nat)
  deriving DecidableEq, Repr

structure Table (ι : Type*) where
  /-- The signal of the entry, if there is one. -/
  entry : Option Nat
  /-- The signals from here on are new. -/
  fresh : Nat
  role : ι → Role

variable {ι : Type*} [DecidableEq ι]

namespace Table

def become (s : Table ι) (t : ι) (r : Role) : Table ι := { s with role := Function.update s.role t r }

/-- Those who listen to a signal go on. -/
def wake (s : Table ι) (n : Nat) : Table ι :=
  { s with role := fun u => if s.role u = .waiting n then .out else s.role u }

def register (s : Table ι) (t : ι) : Table ι :=
  { s.become t .fetching with entry := some s.fresh, fresh := s.fresh + 1 }

def leave (s : Table ι) (t : ι) (n : Nat) : Table ι := { s.become t (.signalling n) with entry := none }

@[simp] theorem become_self (s : Table ι) (t : ι) (r : Role) : (s.become t r).role t = r := Function.update_self ..

theorem become_of_ne {s : Table ι} {t u : ι} (h : u ≠ t) (r : Role) : (s.become t r).role u = s.role u :=
  Function.update_of_ne h ..

theorem become_role (s : Table ι) (t : ι) : s.become t (s.role t) = s := by
  unfold become
  rw [Function.update_eq_self]

/-- A role that a task did not have and does not get is no one's new role. -/
theorem role_become_iff {s : Table ι} {t : ι} {r x : Role} (ht : s.role t ≠ x) (hr : r ≠ x) (u : ι) :
    (s.become t r).role u = x ↔ s.role u = x := by
  by_cases hu : u = t
  · subst hu
    simp [ht, hr]
  · rw [become_of_ne hu]

omit [DecidableEq ι] in
theorem role_wake_iff {s : Table ι} {n : Nat} {x : Role} (hwaiting : x ≠ .waiting n) (hout : x ≠ .out) (u : ι) :
    (s.wake n).role u = x ↔ s.role u = x := by
  unfold wake
  dsimp only
  split
  · rename_i h
    simp [h, hwaiting.symm, hout.symm]
  · exact Iff.rfl

end Table

/-- The table of tasks that are at some place each. -/
def Table.of {π : Type*} (role : π → Role) (entry : Option Nat) (fresh : Nat) (place : ι → π) : Table ι :=
  ⟨entry, fresh, fun t => role (place t)⟩

theorem Table.of_update {π : Type*} (role : π → Role) (entry : Option Nat) (fresh : Nat) (place : ι → π) (t : ι)
    (p : π) : Table.of role entry fresh (Function.update place t p) =
      (Table.of role entry fresh place).become t (role p) := by
  unfold Table.of Table.become
  congr 1
  funext u
  simp only [Function.update_apply]
  split <;> rfl

theorem Table.of_update_same {π : Type*} {role : π → Role} {entry : Option Nat} {fresh : Nat} {place : ι → π} {t : ι}
    {p : π} (h : role p = role (place t)) :
    Table.of role entry fresh (Function.update place t p) = Table.of role entry fresh place := by
  rw [Table.of_update, h]
  exact Table.become_role (Table.of role entry fresh place) t

omit [DecidableEq ι] in
theorem Table.of_wake {π : Type*} [DecidableEq π] {role : π → Role} {entry : Option Nat} {fresh n : Nat}
    {place : ι → π} {waiting woken : π} (hwaiting : ∀ p, role p = .waiting n ↔ p = waiting)
    (hwoken : role woken = .out) :
    Table.of role entry fresh (fun u => if place u = waiting then woken else place u) =
      (Table.of role entry fresh place).wake n := by
  unfold Table.of Table.wake
  congr 1
  funext u
  simp only [hwaiting]
  split
  · exact hwoken
  · rfl

inductive Move : Table ι → Table ι → Prop
  | stay (s : Table ι) : Move s s
  | register (s : Table ι) (t : ι) : s.role t = .out → s.entry = none → Move s (s.register t)
  | take (s : Table ι) (t : ι) (n : Nat) : s.role t = .out → s.entry = some n → Move s (s.become t (.taken n))
  | listen (s : Table ι) (t : ι) (n : Nat) : s.role t = .taken n → Move s (s.become t (.waiting n))
  | leave (s : Table ι) (t : ι) (n : Nat) : s.role t = .fetching → s.entry = some n → Move s (s.leave t n)
  | signal (s : Table ι) (t : ι) (n : Nat) : s.role t = .signalling n → Move s ((s.wake n).become t .out)

/-! ## One fetcher -/

/-- There is an entry exactly while a task fetches, and no two of them do. -/
structure Single (s : Table ι) : Prop where
  one : ∀ t u, s.role t = .fetching → s.role u = .fetching → t = u
  entry : s.entry.isSome ↔ ∃ t, s.role t = .fetching

omit [DecidableEq ι] in
theorem Single.congr {s s' : Table ι} (h : Single s)
    (hrole : ∀ u, s'.role u = .fetching ↔ s.role u = .fetching) (hentry : s'.entry = s.entry) : Single s' := by
  refine ⟨fun t u ht hu => h.one t u ((hrole t).mp ht) ((hrole u).mp hu), ?_⟩
  rw [hentry, h.entry]
  simp only [hrole]

theorem Single.register {s : Table ι} (h : Single s) (t : ι) (hnone : s.entry = none) : Single (s.register t) := by
  have honly : ∀ u, (s.register t).role u = .fetching → u = t := by
    intro u hu
    by_contra hne
    have hthere := h.entry.mpr ⟨u, (Table.become_of_ne hne _).symm.trans hu⟩
    simp [hnone] at hthere
  refine ⟨fun u v hu hv => (honly u hu).trans (honly v hv).symm, ?_⟩
  exact iff_of_true rfl ⟨t, Table.become_self ..⟩

theorem Single.leave {s : Table ι} (h : Single s) {t : ι} (ht : s.role t = .fetching) (n : Nat) :
    Single (s.leave t n) := by
  have hnobody : ∀ u, (s.leave t n).role u ≠ .fetching := by
    intro u hu
    by_cases hut : u = t
    · subst hut
      exact absurd ((Table.become_self s u _).symm.trans hu) (by simp)
    · exact hut (h.one u t ((Table.become_of_ne hut _).symm.trans hu) ht)
  refine ⟨fun u _ hu _ => absurd hu (hnobody u), ?_⟩
  exact iff_of_false (by simp [Table.leave]) (not_exists.mpr hnobody)

theorem Move.single {s s' : Table ι} (h : Move s s') (hs : Single s) : Single s' := by
  cases h with
  | stay => exact hs
  | register t _ hnone => exact hs.register t hnone
  | take t n ht _ => exact hs.congr (Table.role_become_iff (by simp [ht]) (by simp)) rfl
  | listen t n ht => exact hs.congr (Table.role_become_iff (by simp [ht]) (by simp)) rfl
  | leave t n ht _ => exact hs.leave ht n
  | signal t n ht =>
    have hwake (u : ι) : (s.wake n).role u = .fetching ↔ s.role u = .fetching :=
      Table.role_wake_iff (by simp) (by simp) u
    refine hs.congr (fun u => ?_) rfl
    rw [Table.role_become_iff (by rw [ne_eq, hwake, ht]; simp) (by simp), hwake]

/-! ## Nobody is stranded -/

/-- The task has a signal, and listens to it or will. -/
def Holds (s : Table ι) (u : ι) (n : Nat) : Prop := s.role u = .taken n ∨ s.role u = .waiting n

/-- Someone will still give the signal. -/
def Served (s : Table ι) (n : Nat) : Prop :=
  (s.entry = some n ∧ ∃ f, s.role f = .fetching) ∨ ∃ f, s.role f = .signalling n

def AllServed (s : Table ι) : Prop := ∀ u n, Holds s u n → Served s n

/-- If a signal is given between `s` and `s'`, everybody who has it listens. -/
def Reaches (s s' : Table ι) : Prop :=
  ∀ t n, s.role t = .signalling n → s'.role t ≠ .signalling n → ∀ u, s.role u ≠ .taken n

theorem Holds.of_become {s : Table ι} {t u : ι} {r : Role} {n : Nat} (h : Holds (s.become t r) u n)
    (htaken : r ≠ .taken n) (hwaiting : r ≠ .waiting n) : Holds s u n := by
  by_cases hut : u = t
  · subst hut
    rcases h with h | h
    · exact absurd ((Table.become_self s u r).symm.trans h) htaken
    · exact absurd ((Table.become_self s u r).symm.trans h) hwaiting
  · unfold Holds at h
    rwa [Table.become_of_ne hut] at h

theorem Served.become {s : Table ι} {n : Nat} (h : Served s n) {t : ι} (hfetching : s.role t ≠ .fetching)
    (hsignalling : s.role t ≠ .signalling n) (r : Role) : Served (s.become t r) n := by
  have hkept : ∀ f, s.role f ≠ s.role t → (s.become t r).role f = s.role f := by
    intro f hf
    exact Table.become_of_ne (fun heq => hf (by rw [heq])) r
  rcases h with ⟨hentry, f, hf⟩ | ⟨f, hf⟩
  · exact .inl ⟨hentry, f, (hkept f (by rw [hf]; exact hfetching.symm)).trans hf⟩
  · exact .inr ⟨f, (hkept f (by rw [hf]; exact hsignalling.symm)).trans hf⟩

theorem AllServed.register {s : Table ι} (h : AllServed s) {t : ι} (ht : s.role t = .out) (hnone : s.entry = none) :
    AllServed (s.register t) := by
  intro u n hu
  rcases h u n (Holds.of_become hu (by simp) (by simp)) with ⟨hentry, -⟩ | hsignal
  · simp [hnone] at hentry
  · rcases Served.become (.inr hsignal) (t := t) (by simp [ht]) (by simp [ht]) .fetching with ⟨hentry, -⟩ | hkept
    · exact absurd (hnone.symm.trans hentry) (by simp)
    · exact .inr hkept

theorem AllServed.leave {s : Table ι} (h : AllServed s) {t : ι} {n : Nat} (ht : s.role t = .fetching)
    (hentry : s.entry = some n) : AllServed (s.leave t n) := by
  intro u m hu
  rcases h u m (Holds.of_become hu (by simp) (by simp)) with ⟨hm, -⟩ | ⟨f, hf⟩
  · obtain rfl := Option.some.inj (hentry.symm.trans hm)
    exact .inr ⟨t, Table.become_self ..⟩
  · have hft : f ≠ t := by
      rintro rfl
      rw [ht] at hf
      cases hf
    exact .inr ⟨f, (Table.become_of_ne hft _).trans hf⟩

theorem AllServed.signal {s : Table ι} (h : AllServed s) {t : ι} {n : Nat} (ht : s.role t = .signalling n)
    (hreach : ∀ u, s.role u ≠ .taken n) : AllServed ((s.wake n).become t .out) := by
  intro u m hu
  have hu := Holds.of_become hu (by simp) (by simp)
  have hmn : m ≠ n := by
    rintro rfl
    rcases hu with hu | hu
    · exact hreach u ((Table.role_wake_iff (by simp) (by simp) u).mp hu)
    · unfold Table.wake at hu
      dsimp only at hu
      split at hu
      · cases hu
      · contradiction
  have hold : Holds s u m := by
    rcases hu with hu | hu
    · exact .inl ((Table.role_wake_iff (by simp) (by simp) u).mp hu)
    · exact .inr ((Table.role_wake_iff (by simp [hmn]) (by simp) u).mp hu)
  have hwoken : Served (s.wake n) m := by
    rcases h u m hold with ⟨hentry, f, hf⟩ | ⟨f, hf⟩
    · exact .inl ⟨hentry, f, (Table.role_wake_iff (by simp) (by simp) f).mpr hf⟩
    · exact .inr ⟨f, (Table.role_wake_iff (by simp) (by simp) f).mpr hf⟩
  have ht' : (s.wake n).role t = .signalling n := (Table.role_wake_iff (by simp) (by simp) t).mpr ht
  exact hwoken.become (by simp [ht']) (by simp [ht', hmn.symm]) .out

theorem Move.allServed {s s' : Table ι} (h : Move s s') (hs : Single s) (hserved : AllServed s)
    (hreach : Reaches s s') : AllServed s' := by
  cases h with
  | stay => exact hserved
  | register t ht hnone => exact hserved.register ht hnone
  | take t n ht hentry =>
    intro u m hu
    by_cases hm : n = m
    · subst hm
      exact Served.become (.inl ⟨hentry, hs.entry.mp (by simp [hentry])⟩) (by simp [ht]) (by simp [ht]) _
    · exact (hserved u m (hu.of_become (by simp [hm]) (by simp))).become (by simp [ht]) (by simp [ht]) _
  | listen t n ht =>
    intro u m hu
    by_cases hm : n = m
    · subst hm
      exact (hserved t n (.inl ht)).become (by simp [ht]) (by simp [ht]) _
    · exact (hserved u m (hu.of_become (by simp) (by simp [hm]))).become (by simp [ht]) (by simp [ht]) _
  | leave t n ht hentry => exact hserved.leave ht hentry
  | signal t n ht => exact hserved.signal ht (hreach t n ht (by simp))

/-! ## One who is stranded stays so -/

/-- A task listens to a signal that was given before and is not given again. -/
structure Stranded (u : ι) (n : Nat) (s : Table ι) : Prop where
  waits : s.role u = .waiting n
  old : n < s.fresh
  entry : s.entry ≠ some n
  given : ∀ f, s.role f ≠ .signalling n

omit [DecidableEq ι] in
theorem Stranded.not_served {u : ι} {n : Nat} {s : Table ι} (h : Stranded u n s) : ¬ Served s n := by
  rintro (⟨hentry, -⟩ | ⟨f, hf⟩)
  · exact h.entry hentry
  · exact h.given f hf

theorem Stranded.become {u t : ι} {n : Nat} {s : Table ι} (h : Stranded u n s) {r : Role}
    (ht : s.role t ≠ .waiting n) (hr : r ≠ .signalling n) : Stranded u n (s.become t r) := by
  have hut : u ≠ t := by
    rintro rfl
    exact ht h.waits
  refine ⟨(Table.become_of_ne hut r).trans h.waits, h.old, h.entry, fun f hf => ?_⟩
  by_cases hft : f = t
  · subst hft
    exact hr ((Table.become_self s f r).symm.trans hf)
  · exact h.given f ((Table.become_of_ne hft r).symm.trans hf)

theorem Move.stranded {s s' : Table ι} {u : ι} {n : Nat} (h : Move s s') (hs : Stranded u n s) :
    Stranded u n s' := by
  cases h with
  | stay => exact hs
  | register t ht _ =>
    have hkept := hs.become (t := t) (r := .fetching) (by simp [ht]) (by simp)
    refine ⟨hkept.waits, Nat.lt_succ_of_lt hs.old, ?_, hkept.given⟩
    intro heq
    exact absurd hs.old (by rw [← Option.some.inj heq]; exact Nat.lt_irrefl _)
  | take t m ht _ => exact hs.become (by simp [ht]) (by simp)
  | listen t m ht => exact hs.become (by simp [ht]) (by simp)
  | leave t m ht hentry =>
    have hmn : m ≠ n := by
      rintro rfl
      exact hs.entry hentry
    have hkept := hs.become (t := t) (r := .signalling m) (by simp [ht]) (by simp [hmn])
    exact ⟨hkept.waits, hs.old, by simp [Table.leave], hkept.given⟩
  | signal t m ht =>
    have hmn : n ≠ m := by
      rintro rfl
      exact hs.given t ht
    have hwoken : Stranded u n (s.wake m) := by
      refine ⟨(Table.role_wake_iff (by simp [hmn]) (by simp) u).mpr hs.waits, hs.old, hs.entry, fun f hf => ?_⟩
      exact hs.given f ((Table.role_wake_iff (by simp) (by simp) f).mp hf)
    have ht' : (s.wake m).role t = .signalling m := (Table.role_wake_iff (by simp) (by simp) t).mpr ht
    exact hwoken.become (by simp [ht']) (by simp)

end SingleFlight
