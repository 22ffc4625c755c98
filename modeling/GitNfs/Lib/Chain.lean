import Mathlib.Data.Set.Finite.Basic
import Mathlib.Data.Fintype.EquivFin

/-! # Chains of calls

A call makes at most one other call. A chain of calls ends, or it goes through a call twice if there are only
finitely many calls that it can go through.
-/

namespace Chain

variable {α : Type*} (next : α → Option α)

/-- The call after `n` steps. -/
def after : Nat → α → Option α
  | 0, a => some a
  | n + 1, a => (next a).bind (after n)

def Ends (a : α) : Prop := ∃ n, after next n a = none

/-- No two places of the chain hold one call. -/
def NoRepeat (a : α) : Prop := ∀ i j b, after next i a = some b → after next j a = some b → i = j

variable {next}

theorem after_add (m n : Nat) (a : α) : after next (m + n) a = (after next m a).bind (after next n) := by
  induction m generalizing a with
  | zero => rw [Nat.zero_add, after, Option.bind_some]
  | succ m ih =>
    rw [Nat.succ_add, after, after, Option.bind_assoc]
    congr 1
    funext b
    exact ih b

/-- A chain that has ended stays ended. -/
theorem after_none {m n : Nat} {a : α} (h : after next m a = none) (hmn : m ≤ n) : after next n a = none := by
  obtain ⟨k, rfl⟩ := Nat.exists_eq_add_of_le hmn
  rw [after_add, h, Option.bind_none]

/-- A call that leads back to itself never ends. -/
theorem after_cycle {d : Nat} {b : α} (h : after next d b = some b) (k : Nat) :
    after next (d * k) b = some b := by
  induction k with
  | zero => rfl
  | succ k ih => rw [Nat.mul_succ, after_add, ih, Option.bind_some, h]

theorem Ends.of_after {n : Nat} {a b : α} (hends : Ends next a) (hb : after next n a = some b) : Ends next b := by
  obtain ⟨m, hm⟩ := hends
  refine ⟨m, ?_⟩
  have h := after_none hm (Nat.le_add_left m n)
  rw [after_add, hb, Option.bind_some] at h
  exact h

theorem Ends.noRepeat {a : α} (h : Ends next a) : NoRepeat next a := by
  have hlt (i j : Nat) (b : α) (hi : after next i a = some b) (hj : after next j a = some b) : ¬ i < j := by
    intro hij
    obtain ⟨d, rfl⟩ := Nat.exists_eq_add_of_le (Nat.le_of_lt hij)
    have hcycle : after next d b = some b := by
      rw [after_add, hi, Option.bind_some] at hj
      exact hj
    obtain ⟨m, hm⟩ := h.of_after hi
    have hnone := after_none hm (Nat.le_mul_of_pos_left m (show 0 < d by omega))
    rw [after_cycle hcycle] at hnone
    simp at hnone
  intro i j b hi hj
  have := hlt i j b hi hj
  have := hlt j i b hj hi
  omega

theorem after_mem {S : Set α} (hS : ∀ a ∈ S, ∀ b, next a = some b → b ∈ S) {n : Nat} {a b : α} (ha : a ∈ S)
    (h : after next n a = some b) : b ∈ S := by
  induction n generalizing a with
  | zero =>
    rw [after, Option.some.injEq] at h
    exact h ▸ ha
  | succ n ih =>
    rw [after, Option.bind_eq_some_iff] at h
    obtain ⟨c, hc, h⟩ := h
    exact ih (hS a ha c hc) h

/-- In a finite set that is not left, a chain without a repetition ends. -/
theorem NoRepeat.ends {S : Set α} (hfin : S.Finite) (hS : ∀ a ∈ S, ∀ b, next a = some b → b ∈ S) {a : α}
    (ha : a ∈ S) (h : NoRepeat next a) : Ends next a := by
  by_contra hnever
  have hsome (n : Nat) : ∃ b, after next n a = some b := by
    apply Option.ne_none_iff_exists'.mp
    intro hn
    exact hnever ⟨n, hn⟩
  choose f hf using hsome
  have hinj : Function.Injective f := fun i j hij => h i j (f i) (hf i) (hij ▸ hf j)
  exact Set.infinite_of_injective_forall_mem hinj (fun n => after_mem hS ha (hf n)) hfin

theorem ends_iff_noRepeat {S : Set α} (hfin : S.Finite) (hS : ∀ a ∈ S, ∀ b, next a = some b → b ∈ S) {a : α}
    (ha : a ∈ S) : Ends next a ↔ NoRepeat next a :=
  ⟨Ends.noRepeat, NoRepeat.ends hfin hS ha⟩

end Chain
