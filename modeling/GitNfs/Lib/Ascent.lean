import Mathlib.Data.Nat.Find
import Mathlib.Logic.Function.Iterate
import Mathlib.Data.Finset.Card
import Mathlib.Data.Finset.Range

/-! # Walking up to a root

A function takes every point to its parent. Points are above each other along its iterates, and the
question is what is still below the root when one point gets another parent.
-/

namespace Ascent

variable {α : Type*} {f f' : α → α} {x y z i t r : α}

/-- Some number of steps lead from `x` to `y`. -/
def Above (f : α → α) (x y : α) : Prop := ∃ k, f^[k] x = y

theorem Above.refl (f : α → α) (x : α) : Above f x x := ⟨0, rfl⟩

theorem Above.step (h : Above f (f x) y) : Above f x y := by
  obtain ⟨k, hk⟩ := h
  exact ⟨k + 1, hk⟩

theorem Above.trans (hxy : Above f x y) (hyz : Above f y z) : Above f x z := by
  obtain ⟨k, rfl⟩ := hxy
  obtain ⟨m, rfl⟩ := hyz
  exact ⟨m + k, Function.iterate_add_apply f m k x⟩

theorem Above.cases (h : Above f x y) : x = y ∨ Above f (f x) y := by
  obtain ⟨k, hk⟩ := h
  cases k with
  | zero => exact .inl hk
  | succ k => exact .inr ⟨k, hk⟩

/-- Where two functions agree on a set that the walk does not leave, the walk is the same. -/
theorem iterate_congr {P : α → Prop} (hP : ∀ x, P x → P (f x)) (hf : ∀ x, P x → f' x = f x) (hx : P x)
    (k : Nat) : f'^[k] x = f^[k] x := by
  induction k generalizing x with
  | zero => rfl
  | succ k ih =>
    rw [Function.iterate_succ_apply, Function.iterate_succ_apply, hf x hx]
    exact ih (hP x hx)

theorem Above.congr {P : α → Prop} (hP : ∀ x, P x → P (f x)) (hf : ∀ x, P x → f' x = f x) (hx : P x)
    (h : Above f x y) : Above f' x y := by
  obtain ⟨k, rfl⟩ := h
  exact ⟨k, iterate_congr hP hf hx k⟩

section Update

variable [DecidableEq α]

/-- A point that moves to a parent that is not below it takes along what is below it. -/
theorem Above.update (ht : ¬ Above f t i) (htr : Above f t r) (h : Above f x r) :
    Above (Function.update f i t) x r := by
  have hback : Above (Function.update f i t) t r := by
    refine htr.congr (P := fun y => ¬ Above f y i) (fun y hy hfy => hy hfy.step) (fun y hy => ?_) ht
    refine Function.update_of_ne ?_ _ _
    rintro rfl
    exact hy (.refl f _)
  obtain ⟨k, hk⟩ := h
  induction k generalizing x with
  | zero => exact ⟨0, hk⟩
  | succ k ih =>
    refine .step ?_
    by_cases hx : x = i
    · rw [hx, Function.update_self]
      exact hback
    · rw [Function.update_of_ne hx]
      exact ih hk

/-- A point that moves below itself does not come to the root any more. -/
theorem not_above_update (hr : f r = r) (hir : i ≠ r) (ht : Above f t i) :
    ¬ Above (Function.update f i t) i r := by
  obtain ⟨m, hm⟩ := ht
  have hcycle : ∀ k, ∃ j ≤ m, f^[j] t = (Function.update f i t)^[k] i := by
    intro k
    induction k with
    | zero => exact ⟨m, le_rfl, hm⟩
    | succ k ih =>
      obtain ⟨j, hj, hjk⟩ := ih
      rw [Function.iterate_succ_apply', ← hjk]
      by_cases hi : f^[j] t = i
      · exact ⟨0, Nat.zero_le m, by rw [hi, Function.update_self]; rfl⟩
      · refine ⟨j + 1, ?_, by rw [Function.update_of_ne hi, Function.iterate_succ_apply']⟩
        rcases Nat.lt_or_eq_of_le hj with hlt | rfl
        · exact hlt
        · exact absurd hm hi
  rintro ⟨k, hk⟩
  obtain ⟨j, hj, hjk⟩ := hcycle k
  apply hir
  calc i = f^[m] t := hm.symm
    _ = f^[m - j] (f^[j] t) := by rw [← Function.iterate_add_apply, Nat.sub_add_cancel hj]
    _ = r := by rw [hjk, hk, Function.iterate_fixed hr]

end Update

/-- A walk that comes to a fixed point meets what it has met by then. -/
theorem not_above_of_fixed {m : Nat} (hr : f r = r) (hm : f^[m] t = r) (h : ∀ k ≤ m, f^[k] t ≠ i) :
    ¬ Above f t i := by
  rintro ⟨k, hk⟩
  rcases Nat.le_total k m with hle | hle
  · exact h k hle hk
  · apply h m le_rfl
    calc f^[m] t = r := hm
      _ = f^[k - m] (f^[m] t) := by rw [hm, Function.iterate_fixed hr]
      _ = i := by rw [← Function.iterate_add_apply, Nat.sub_add_cancel hle, hk]

/-- A walk that stays in a finite set comes to its end in fewer steps than the set has points. -/
theorem Above.bounded (s : Finset α) (hs : ∀ k, f^[k] x ∈ s) (h : Above f x y) :
    ∃ k < s.card, f^[k] x = y := by
  classical
  refine ⟨Nat.find h, ?_, Nat.find_spec h⟩
  -- a point that comes twice would be a shorter way
  have hne : ∀ a b, a < b → b ≤ Nat.find h → f^[a] x ≠ f^[b] x := by
    intro a b hab hb heq
    apply Nat.find_min h (show Nat.find h - b + a < Nat.find h by omega)
    rw [Function.iterate_add_apply, heq, ← Function.iterate_add_apply, Nat.sub_add_cancel hb]
    exact Nat.find_spec h
  have hinj : Set.InjOn (fun k => f^[k] x) (Finset.range (Nat.find h + 1)) := by
    intro a ha b hb heq
    rw [Finset.mem_coe, Finset.mem_range] at ha hb
    rcases Nat.lt_trichotomy a b with hab | hab | hab
    · exact absurd heq (hne a b hab (by omega))
    · exact hab
    · exact absurd heq.symm (hne b a hab (by omega))
  have := Finset.card_le_card_of_injOn _ (fun k _ => hs k) hinj
  rw [Finset.card_range] at this
  omega

end Ascent
