import Mathlib.Order.Defs.Unbundled
import Mathlib.Tactic.ByContra

/-! # Runs of a step function

A system is a partial function from a state and an action to the next state. All that is open about a step
stands in its action.
-/

namespace Run

variable {σ α : Type*} (step : σ → α → Option σ)

/-- The state after a list of actions, if every one of them could be taken. -/
def run : σ → List α → Option σ
  | s, [] => some s
  | s, a :: as => (step s a).bind fun s' => run s' as

/-- Every action of a run meets a condition on the state it is taken in. -/
def Meets (ok : σ → α → Prop) : σ → List α → Prop
  | _, [] => True
  | s, a :: as => ok s a ∧ ∀ s', step s a = some s' → Meets ok s' as

variable {step} {ok : σ → α → Prop}

theorem run_cons {s s' : σ} {a : α} {as : List α} :
    run step s (a :: as) = some s' ↔ ∃ t, step s a = some t ∧ run step t as = some s' := by
  simp [run, Option.bind_eq_some_iff]

theorem run_append {s s' : σ} {as bs : List α} :
    run step s (as ++ bs) = some s' ↔ ∃ t, run step s as = some t ∧ run step t bs = some s' := by
  induction as generalizing s with
  | nil => simp [run]
  | cons a as ih =>
    simp only [List.cons_append, run_cons, ih]
    constructor
    · rintro ⟨u, hu, t, ht, h⟩
      exact ⟨t, ⟨u, hu, ht⟩, h⟩
    · rintro ⟨t, ⟨u, hu, ht⟩, h⟩
      exact ⟨u, hu, t, ht, h⟩

theorem meets_and {ok' : σ → α → Prop} {s : σ} {as : List α} (h : Meets step ok s as)
    (h' : Meets step ok' s as) : Meets step (fun s a => ok s a ∧ ok' s a) s as := by
  induction as generalizing s with
  | nil => trivial
  | cons a as ih => exact ⟨⟨h.1, h'.1⟩, fun s' hs' => ih (h.2 s' hs') (h'.2 s' hs')⟩

theorem meets_take {s : σ} {as bs : List α} (h : Meets step ok s (as ++ bs)) : Meets step ok s as := by
  induction as generalizing s with
  | nil => trivial
  | cons a as ih => exact ⟨h.1, fun s' hs' => ih (h.2 s' hs')⟩

theorem meets_append {s t : σ} {as bs : List α} (hrun : run step s as = some t)
    (h : Meets step ok s (as ++ bs)) : Meets step ok s as ∧ Meets step ok t bs := by
  induction as generalizing s with
  | nil =>
    simp only [run, Option.some.injEq] at hrun
    subst hrun
    exact ⟨trivial, h⟩
  | cons a as ih =>
    obtain ⟨u, hstep, hrun⟩ := run_cons.mp hrun
    obtain ⟨hok, hrest⟩ := h
    obtain ⟨has, hbs⟩ := ih hrun (hrest u hstep)
    refine ⟨⟨hok, fun s' hs' => ?_⟩, hbs⟩
    rw [hstep, Option.some.injEq] at hs'
    exact hs' ▸ has

theorem meets_true (step : σ → α → Option σ) (s : σ) (as : List α) : Meets step (fun _ _ => True) s as := by
  induction as generalizing s with
  | nil => trivial
  | cons a as ih => exact ⟨trivial, fun s' _ => ih s'⟩

theorem meets_of_mem {P : α → Prop} (s : σ) {as : List α} (h : ∀ a ∈ as, P a) :
    Meets step (fun _ a => P a) s as := by
  induction as generalizing s with
  | nil => trivial
  | cons a as ih => exact ⟨h a List.mem_cons_self, fun s' _ => ih s' fun b hb => h b (List.mem_cons_of_mem a hb)⟩

/-- The part of a condition that can be computed, along a run. -/
def check (step : σ → α → Option σ) (chk : σ → α → Bool) : σ → List α → Bool
  | _, [] => true
  | s, a :: as =>
    chk s a &&
      match step s a with
      | some s' => check step chk s' as
      | none => true

theorem meets_of_check {chk : σ → α → Bool} (hchk : ∀ s a, chk s a = true → ok s a) {s : σ} {as : List α}
    (h : check step chk s as = true) : Meets step ok s as := by
  induction as generalizing s with
  | nil => trivial
  | cons a as ih =>
    simp only [check, Bool.and_eq_true] at h
    refine ⟨hchk s a h.1, fun s' hs' => ih ?_⟩
    rw [hs'] at h
    exact h.2

/-- What every step keeps holds at the end of every run. -/
theorem invariant {I : σ → Prop} (hstep : ∀ s a s', I s → ok s a → step s a = some s' → I s')
    {s s' : σ} {as : List α} (hmeets : Meets step ok s as) (hrun : run step s as = some s')
    (hs : I s) : I s' := by
  induction as generalizing s with
  | nil =>
    simp only [run, Option.some.injEq] at hrun
    exact hrun ▸ hs
  | cons a as ih =>
    obtain ⟨t, ht, hrun⟩ := run_cons.mp hrun
    exact ih (hmeets.2 t ht) hrun (hstep s a t hs hmeets.1 ht)

/-- Where a step that does not meet the condition breaks a property that an invariant implies, the property
holds in all the states of a run exactly if every action meets the condition. -/
theorem meets_iff {I C : σ → Prop} (himp : ∀ s, I s → C s)
    (hstep : ∀ s a s', I s → ok s a → step s a = some s' → I s')
    (hbreak : ∀ s a, I s → ¬ ok s a → ∃ s', step s a = some s' ∧ ¬ C s') {s : σ} {as : List α} (hs : I s) :
    (∀ done rest s', as = done ++ rest → run step s done = some s' → C s') ↔ Meets step ok s as := by
  constructor
  · intro h
    induction as generalizing s with
    | nil => trivial
    | cons a as ih =>
      have hok : ok s a := by
        by_contra hnot
        obtain ⟨s', hs', hC⟩ := hbreak s a hs hnot
        exact hC (h [a] as s' rfl (run_cons.mpr ⟨s', hs', rfl⟩))
      refine ⟨hok, fun s' hs' => ih (hstep s a s' hs hok hs') fun done rest t has hrun => ?_⟩
      exact h (a :: done) rest t (by rw [has, List.cons_append]) (run_cons.mpr ⟨s', hs', hrun⟩)
  · rintro h done rest s' rfl hrun
    induction done generalizing s with
    | nil =>
      simp only [run, Option.some.injEq] at hrun
      exact hrun ▸ himp s hs
    | cons a done ih =>
      obtain ⟨t, ht, hrun⟩ := run_cons.mp hrun
      exact ih (hstep s a t hs h.1 ht) (h.2 t ht) hrun

/-- A relation that holds across every step holds between the two ends of every run. -/
theorem related {I : σ → Prop} {R : σ → σ → Prop} [Std.Refl R] [IsTrans σ R]
    (hstep : ∀ s a s', I s → ok s a → step s a = some s' → I s' ∧ R s s')
    {s s' : σ} {as : List α} (hmeets : Meets step ok s as) (hrun : run step s as = some s')
    (hs : I s) : R s s' := by
  induction as generalizing s with
  | nil =>
    simp only [run, Option.some.injEq] at hrun
    exact hrun ▸ Std.Refl.refl s
  | cons a as ih =>
    obtain ⟨t, ht, hrun⟩ := run_cons.mp hrun
    obtain ⟨hI, hR⟩ := hstep s a t hs hmeets.1 ht
    exact IsTrans.trans _ _ _ hR (ih (hmeets.2 t ht) hrun hI)

end Run
