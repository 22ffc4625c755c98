import Mathlib.Data.List.TakeDrop
import Mathlib.Data.List.Sort
import Mathlib.Tactic.ByContra

/-! # Searching a sorted list

`cmp` compares an element with what is looked for. A list is sorted for it if what comes behind an
element that is too great is too great as well, and what comes before one that is too small too small.
-/

namespace Search

variable {α : Type*}

structure SortedFor (cmp : α → Ordering) (l : List α) : Prop where
  gt : l.Pairwise fun a b => cmp a = .gt → cmp b = .gt
  lt : l.Pairwise fun a b => cmp b = .lt → cmp a = .lt

/-- Where the search ends up among the `size` elements from `base` on, which are halved each time. -/
def narrow (cmp : α → Ordering) (l : List α) : Nat → Nat → Nat → Nat
  | 0, base, _ => base
  | fuel + 1, base, size =>
    if size ≤ 1 then base
    else
      match l[base + size / 2]? with
      | none => base
      | some a => narrow cmp l fuel (if cmp a = .gt then base else base + size / 2) (size - size / 2)

/-- The place of an element that is equal to what is looked for. -/
def binarySearch (cmp : α → Ordering) (l : List α) : Option Nat :=
  let i := narrow cmp l l.length 0 l.length
  if (l[i]?.map cmp) = some .eq then some i else none

variable {cmp : α → Ordering} {l : List α}

/-- What is found is there, sorted or not. -/
theorem binarySearch_some {i : Nat} (h : binarySearch cmp l = some i) : ∃ a, l[i]? = some a ∧ cmp a = .eq := by
  unfold binarySearch at h
  simp only [Option.ite_none_right_eq_some, Option.some.injEq, Option.map_eq_some_iff] at h
  obtain ⟨⟨a, ha, heq⟩, rfl⟩ := h
  exact ⟨a, ha, heq⟩

/-- The invariant of the search: something equal is left among the elements it still looks at. -/
theorem narrow_spec (hsorted : SortedFor cmp l) (fuel base size : Nat) (hfuel : size ≤ fuel)
    (hin : base + size ≤ l.length)
    (hleft : ∃ i a, base ≤ i ∧ i < base + size ∧ l[i]? = some a ∧ cmp a = .eq) :
    ∃ a, l[narrow cmp l fuel base size]? = some a ∧ cmp a = .eq := by
  induction fuel generalizing base size with
  | zero =>
    obtain ⟨i, a, hbase, hlt, -⟩ := hleft
    omega
  | succ fuel ih =>
    obtain ⟨i, a, hbase, hlt, ha, heq⟩ := hleft
    unfold narrow
    by_cases hone : size ≤ 1
    · rw [if_pos hone]
      obtain rfl : i = base := by omega
      exact ⟨a, ha, heq⟩
    · rw [if_neg hone]
      have hmid : base + size / 2 < l.length := by omega
      have hi : i < l.length := by omega
      rw [List.getElem?_eq_getElem hmid]
      have hai : l[i] = a := by
        rw [List.getElem?_eq_getElem hi] at ha
        exact Option.some.inj ha
      simp only
      by_cases hgt : cmp l[base + size / 2] = .gt
      · rw [if_pos hgt]
        refine ih base (size - size / 2) (by omega) (by omega) ⟨i, a, hbase, ?_, ha, heq⟩
        have hbefore : i < base + size / 2 := by
          by_contra hnot
          rcases Nat.lt_or_eq_of_le (Nat.not_lt.mp hnot) with hlt' | hmi
          · have := List.pairwise_iff_getElem.mp hsorted.gt _ i hmid hi hlt' hgt
            rw [hai, heq] at this
            exact absurd this (by decide)
          · subst hmi
            rw [hai, heq] at hgt
            exact absurd hgt (by decide)
        omega
      · rw [if_neg hgt]
        by_cases hmeq : cmp l[base + size / 2] = .eq
        · exact ih _ _ (by omega) (by omega)
            ⟨base + size / 2, l[base + size / 2], Nat.le_refl _, by omega, List.getElem?_eq_getElem hmid, hmeq⟩
        · refine ih _ _ (by omega) (by omega) ⟨i, a, ?_, by omega, ha, heq⟩
          have hsmall : cmp l[base + size / 2] = .lt := by
            cases hcmp : cmp l[base + size / 2] <;> simp_all
          by_contra hnot
          have := List.pairwise_iff_getElem.mp hsorted.lt i _ hi hmid (by omega) hsmall
          rw [hai, heq] at this
          exact absurd this (by decide)

/-- In a sorted list what is there is found. -/
theorem binarySearch_isSome (hsorted : SortedFor cmp l) {a : α} (ha : a ∈ l) (heq : cmp a = .eq) :
    (binarySearch cmp l).isSome := by
  obtain ⟨i, hi, hget⟩ := List.mem_iff_getElem.mp ha
  obtain ⟨b, hb, hbeq⟩ := narrow_spec hsorted l.length 0 l.length (Nat.le_refl _) (by omega)
    ⟨i, a, Nat.zero_le _, by omega, by rw [List.getElem?_eq_getElem hi, hget], heq⟩
  unfold binarySearch
  simp [hb, hbeq]

/-! ## How many elements are up to a bound -/

theorem getElem_le_iff {key : α → Nat} (hsorted : l.Pairwise fun a b => key a ≤ key b) (bound i : Nat)
    (hi : i < l.length) : key l[i] ≤ bound ↔ i < l.countP (key · ≤ bound) := by
  induction l generalizing i with
  | nil => exact absurd hi (by simp)
  | cons a l ih =>
    obtain ⟨hhead, htail⟩ := List.pairwise_cons.mp hsorted
    have hnone (ha : ¬key a ≤ bound) : l.countP (key · ≤ bound) = 0 := by
      rw [List.countP_eq_zero]
      intro b hb hle
      have := hhead b hb
      simp only [decide_eq_true_eq] at hle
      omega
    cases i with
    | zero =>
      by_cases ha : key a ≤ bound
      · simp [ha]
      · simp [ha, hnone ha]
    | succ i =>
      have hi' : i < l.length := by simpa using hi
      rw [List.getElem_cons_succ, ih htail i hi']
      by_cases ha : key a ≤ bound
      · simp [ha]
      · simp [ha, hnone ha]

end Search
