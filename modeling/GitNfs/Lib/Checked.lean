import Mathlib.Algebra.Group.Nat.Defs
import Mathlib.Data.List.Basic

/-! # Steps that can panic

`none` is a panic: a slice or an index that is out of range, or a number that does not fit its type.
-/

namespace Checked

variable {α β : Type*}

/-- `l[start..stop]` -/
def slice (l : List α) (start stop : Nat) : Option (List α) :=
  if start ≤ stop ∧ stop ≤ l.length then some ((l.drop start).take (stop - start)) else none

/-- A sum or a product of type `usize`. -/
def fits (n : Nat) : Option Nat := if n < 2 ^ 64 then some n else none

/-- A difference of unsigned numbers. -/
def sub (a b : Nat) : Option Nat := if b ≤ a then some (a - b) else none

theorem slice_eq {l : List α} {start stop : Nat} (hle : start ≤ stop) (hin : stop ≤ l.length) :
    slice l start stop = some ((l.drop start).take (stop - start)) := if_pos ⟨hle, hin⟩

theorem fits_eq {n : Nat} (h : n < 2 ^ 64) : fits n = some n := if_pos h

theorem sub_eq {a b : Nat} (h : b ≤ a) : sub a b = some (a - b) := if_pos h

/-- A loop in which no step panics. -/
theorem mapM_eq {f : α → Option β} {g : α → β} {l : List α} (h : ∀ a ∈ l, f a = some (g a)) :
    l.mapM f = some (l.map g) := by
  induction l with
  | nil => rfl
  | cons a l ih =>
    rw [List.mapM_cons, h a List.mem_cons_self, ih fun b hb => h b (List.mem_cons_of_mem _ hb)]
    rfl

end Checked
