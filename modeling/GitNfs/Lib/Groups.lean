import Mathlib.Algebra.Order.Ring.Nat
import Mathlib.Tactic.Ring
import Mathlib.Tactic.Linarith

/-! # Numbers in groups of bits

A number is written in groups of `w` bits, and a loop puts it together in a word of `W` bits: the groups
lowest first, each shifted to its place, or the groups highest first, with one added at each step.
-/

namespace Groups

variable {W w : Nat}

/-- A word is shifted by less than its width, and no bit of it is lost. -/
def ShiftFits (W x k : Nat) : Prop := k < W ∧ x <<< k < 2 ^ W

instance (W x k : Nat) : Decidable (ShiftFits W x k) := inferInstanceAs (Decidable (_ ∧ _))

/-! ## Lowest first -/

def littleEndian (w : Nat) : List Nat → Nat
  | [] => 0
  | g :: gs => g + 2 ^ w * littleEndian w gs

/-- Every group is shifted without a loss, the first by `k`. -/
def PlainFits (W w : Nat) : Nat → List Nat → Prop
  | _, [] => True
  | k, g :: gs => ShiftFits W g k ∧ PlainFits W w (k + w) gs

/-- A number below a power of two is still below it when a lower group is put behind it. -/
theorem add_group_lt {a g n : Nat} (hg : g < 2 ^ w) (hn : w ≤ n) (h : 2 ^ w * a < 2 ^ n) :
    2 ^ w * a + g < 2 ^ n := by
  obtain ⟨m, rfl⟩ := Nat.exists_eq_add_of_le hn
  rw [Nat.pow_add] at h ⊢
  have ha : a + 1 ≤ 2 ^ m := Nat.lt_of_mul_lt_mul_left h
  calc 2 ^ w * a + g < 2 ^ w * a + 2 ^ w := by omega
    _ = 2 ^ w * (a + 1) := by ring
    _ ≤ 2 ^ w * 2 ^ m := Nat.mul_le_mul_left _ ha

theorem shift_lt_iff {x k : Nat} (hk : k ≤ W) : x <<< k < 2 ^ W ↔ x < 2 ^ (W - k) := by
  obtain ⟨m, rfl⟩ := Nat.exists_eq_add_of_le hk
  rw [Nat.shiftLeft_eq, Nat.add_sub_cancel_left, Nat.pow_add, Nat.mul_comm]
  exact Nat.mul_lt_mul_left (Nat.two_pow_pos k)

theorem plainFits_iff {k : Nat} {gs : List Nat} (hgs : ∀ g ∈ gs, g < 2 ^ w) :
    PlainFits W w k gs ↔
      (∀ i, i < gs.length → k + w * i < W) ∧ (littleEndian w gs) <<< k < 2 ^ W := by
  induction gs generalizing k with
  | nil => simp [PlainFits, littleEndian]
  | cons g gs ih =>
    have hg := hgs g List.mem_cons_self
    rw [PlainFits, ih fun x hx => hgs x (List.mem_cons_of_mem _ hx), littleEndian]
    have hshift (n : Nat) : n <<< (k + w) = (2 ^ w * n) <<< k := by
      rw [Nat.shiftLeft_eq, Nat.shiftLeft_eq, Nat.pow_add]
      ring
    rw [hshift]
    constructor
    · rintro ⟨⟨hk, hlow⟩, hplaces, hhigh⟩
      refine ⟨fun i hi => ?_, ?_⟩
      · cases i with
        | zero => simpa using hk
        | succ i =>
          have := hplaces i (by simpa using hi)
          rw [Nat.mul_succ]
          omega
      · rw [shift_lt_iff (by omega)] at hlow hhigh ⊢
        cases gs with
        | nil => simpa [littleEndian] using hlow
        | cons g' gs =>
          have := hplaces 0 (by simp)
          rw [Nat.add_comm]
          exact add_group_lt hg (by omega) hhigh
    · rintro ⟨hplaces, hall⟩
      have hk : k < W := by simpa using hplaces 0 (by simp)
      rw [shift_lt_iff (by omega)] at hall
      refine ⟨⟨hk, ?_⟩, fun i hi => ?_, ?_⟩
      · rw [shift_lt_iff (by omega)]
        omega
      · have := hplaces (i + 1) (by simpa using hi)
        rw [Nat.mul_succ] at this
        omega
      · rw [shift_lt_iff (by omega)]
        omega

/-- Below a group that is shifted over a number, the bits of the two are their sum. -/
theorem or_shift {a g k : Nat} (ha : a < 2 ^ k) : a ||| g <<< k = a + g <<< k := by
  rw [Nat.shiftLeft_eq, Nat.or_comm, Nat.mul_comm, ← Nat.two_pow_add_eq_or_of_lt ha, Nat.add_comm]

/-! ## Highest first -/

/-- One is added before each further group, so that no number is written twice. -/
def offsetValue (w : Nat) : Nat → List Nat → Nat
  | v, [] => v
  | v, g :: gs => offsetValue w ((v + 1) * 2 ^ w + g) gs

/-- No sum and no shift on the way is lost. -/
def OffsetFits (W w : Nat) : Nat → List Nat → Prop
  | _, [] => True
  | v, g :: gs => v + 1 < 2 ^ W ∧ ShiftFits W (v + 1) w ∧ OffsetFits W w ((v + 1) * 2 ^ w + g) gs

theorem le_offsetValue (v : Nat) (gs : List Nat) : v ≤ offsetValue w v gs := by
  induction gs generalizing v with
  | nil => exact Nat.le_refl _
  | cons g gs ih =>
    have hstep : v + 1 ≤ (v + 1) * 2 ^ w := Nat.le_mul_of_pos_right _ (Nat.two_pow_pos w)
    exact le_trans (by omega) (ih _)

theorem offsetFits_iff (hw : w < W) {v : Nat} {gs : List Nat} (hgs : ∀ g ∈ gs, g < 2 ^ w)
    (hv : v < 2 ^ W) : OffsetFits W w v gs ↔ offsetValue w v gs < 2 ^ W := by
  induction gs generalizing v with
  | nil => simpa [OffsetFits, offsetValue] using hv
  | cons g gs ih =>
    have hg := hgs g List.mem_cons_self
    have hrest := fun x hx => hgs x (List.mem_cons_of_mem g hx)
    rw [OffsetFits, offsetValue]
    constructor
    · rintro ⟨-, ⟨-, hshift⟩, htail⟩
      rw [Nat.shiftLeft_eq, Nat.mul_comm] at hshift
      have hnext := add_group_lt hg (Nat.le_of_lt hw) hshift
      rw [Nat.mul_comm] at hnext
      exact (ih hrest hnext).mp htail
    · intro hlt
      have hnext := lt_of_le_of_lt (le_offsetValue ((v + 1) * 2 ^ w + g) gs) hlt
      have hstep : v + 1 ≤ (v + 1) * 2 ^ w := Nat.le_mul_of_pos_right _ (Nat.two_pow_pos w)
      refine ⟨by omega, ⟨hw, ?_⟩, (ih hrest hnext).mpr hlt⟩
      rw [Nat.shiftLeft_eq]
      omega

end Groups
