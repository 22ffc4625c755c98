import Mathlib.Data.List.TakeDrop
import Mathlib.Tactic.SplitIfs

/-! # Streams of frames

A reader takes the first item off a stream, if the whole of it is there. To scan a stream is to do that
until the reader stops.
-/

namespace Framing

variable {α β : Type*}

/-- What takes the first item off a stream, and says how much of the stream that is. What comes behind an
item does not change it. -/
structure Reader (α β : Type*) where
  next : List β → Option (α × Nat)
  next_size : ∀ s a n, next s = some (a, n) → 0 < n ∧ n ≤ s.length
  next_append : ∀ s t a n, next s = some (a, n) → next (s ++ t) = some (a, n)

namespace Reader

variable (r : Reader α β)

def scanLoop : Nat → List β → List α × Nat
  | 0, _ => ([], 0)
  | fuel + 1, s =>
    match r.next s with
    | none => ([], 0)
    | some (a, n) =>
      let rest := scanLoop fuel (s.drop n)
      (a :: rest.1, n + rest.2)

/-- The items at the front of a stream, and how much of it they take. An item takes something, so there
are no more of them than the stream is long. -/
def scan (s : List β) : List α × Nat := r.scanLoop s.length s

variable {r}

theorem scanLoop_eq (fuel : Nat) (s : List β) (h : s.length ≤ fuel) : r.scanLoop fuel s = r.scan s := by
  have hany : ∀ (fuel fuel' : Nat) (s : List β), s.length ≤ fuel → s.length ≤ fuel' →
      r.scanLoop fuel s = r.scanLoop fuel' s := by
    intro fuel
    induction fuel with
    | zero =>
      intro fuel' s hs _
      have hnone : r.next s = none := by
        cases hn : r.next s with
        | none => rfl
        | some p =>
          have := r.next_size s p.1 p.2 hn
          omega
      cases fuel' <;> simp [scanLoop, hnone]
    | succ fuel ih =>
      intro fuel' s hs hs'
      cases hn : r.next s with
      | none => cases fuel' <;> simp [scanLoop, hn]
      | some p =>
        obtain ⟨a, n⟩ := p
        have hsize := r.next_size s a n hn
        cases fuel' with
        | zero => omega
        | succ fuel' =>
          simp only [scanLoop, hn]
          rw [ih fuel' (s.drop n) (by rw [List.length_drop]; omega) (by rw [List.length_drop]; omega)]
  exact hany fuel s.length s h (Nat.le_refl _)

theorem scan_none {s : List β} (h : r.next s = none) : r.scan s = ([], 0) := by
  unfold scan
  cases s.length <;> simp [scanLoop, h]

theorem scan_some {s : List β} {a : α} {n : Nat} (h : r.next s = some (a, n)) :
    r.scan s = (a :: (r.scan (s.drop n)).1, n + (r.scan (s.drop n)).2) := by
  have hsize := r.next_size s a n h
  obtain ⟨fuel, hfuel⟩ := Nat.exists_eq_succ_of_ne_zero (show s.length ≠ 0 by omega)
  have hrest : r.scanLoop fuel (s.drop n) = r.scan (s.drop n) :=
    scanLoop_eq _ _ (by rw [List.length_drop]; omega)
  rw [scan, hfuel, Nat.succ_eq_add_one, scanLoop, h]
  simp only [hrest]

/-- A stream that is read to its end says nothing about what is read behind it. -/
theorem scan_append (s t : List β) (h : (r.scan s).2 = s.length) :
    r.scan (s ++ t) = ((r.scan s).1 ++ (r.scan t).1, (r.scan s).2 + (r.scan t).2) := by
  induction hs : s.length using Nat.strongRecOn generalizing s with
  | ind len ih =>
    cases hn : r.next s with
    | none =>
      rw [scan_none hn] at h ⊢
      obtain rfl : s = [] := List.eq_nil_of_length_eq_zero h.symm
      simp
    | some p =>
      obtain ⟨a, n⟩ := p
      have hsize := r.next_size s a n hn
      have hlen : (s.drop n).length = s.length - n := List.length_drop
      rw [scan_some hn] at h ⊢
      simp only at h
      have hrest := ih (s.drop n).length (by omega) (s.drop n) (by omega) rfl
      rw [scan_some (r.next_append s t a n hn), List.drop_append_of_le_length hsize.2, hrest]
      simp [Nat.add_assoc]

/-- What is read of a stream is still read when the stream goes on. -/
theorem scan_prefix (s t : List β) : (r.scan s).1 <+: (r.scan (s ++ t)).1 := by
  induction hs : s.length using Nat.strongRecOn generalizing s with
  | ind len ih =>
    cases hn : r.next s with
    | none =>
      rw [scan_none hn]
      exact List.nil_prefix
    | some p =>
      obtain ⟨a, n⟩ := p
      have hsize := r.next_size s a n hn
      have hlen : (s.drop n).length = s.length - n := List.length_drop
      rw [scan_some hn, scan_some (r.next_append s t a n hn), List.drop_append_of_le_length hsize.2]
      exact (List.prefix_cons_inj a).mpr (ih (s.drop n).length (by omega) (s.drop n) rfl)

/-- A reader that decodes the items of another one, and stops at the first that it cannot decode. -/
def Through {γ : Type*} (r : Reader α β) (m : Reader γ β) (decode : γ → Option α) : Prop :=
  ∀ s, r.next s = (m.next s).bind fun p => (decode p.1).map fun a => (a, p.2)

section Through

variable {γ : Type*} {m : Reader γ β} {decode : γ → Option α}

/-- Nothing is left where a scan stopped exactly when every item could be decoded. -/
theorem through_stops_iff (h : r.Through m decode) (s : List β) :
    m.next (s.drop (r.scan s).2) = none ↔ ∀ x ∈ (m.scan s).1, (decode x).isSome = true := by
  induction hs : s.length using Nat.strongRecOn generalizing s with
  | ind len ih =>
    cases hm : m.next s with
    | none =>
      have hr : r.next s = none := by rw [h s, hm, Option.bind_none]
      rw [scan_none hr, scan_none hm, List.drop_zero, hm]
      simp
    | some p =>
      obtain ⟨x, n⟩ := p
      have hsize := m.next_size s x n hm
      have hlen : (s.drop n).length = s.length - n := List.length_drop
      have hnext := h s
      rw [hm, Option.bind_some] at hnext
      rw [scan_some hm]
      simp only [List.forall_mem_cons]
      cases hx : decode x with
      | none =>
        rw [hx, Option.map_none] at hnext
        rw [scan_none hnext, List.drop_zero, hm]
        simp
      | some a =>
        rw [hx, Option.map_some] at hnext
        rw [scan_some hnext, ← ih (s.drop n).length (by omega) (s.drop n) rfl]
        simp only
        rw [← List.drop_drop]
        simp

/-- What is scanned where every item can be decoded. -/
theorem through_scan (h : r.Through m decode) (s : List β)
    (hall : ∀ x ∈ (m.scan s).1, (decode x).isSome = true) : (r.scan s).1 = (m.scan s).1.filterMap decode := by
  induction hs : s.length using Nat.strongRecOn generalizing s with
  | ind len ih =>
    cases hm : m.next s with
    | none =>
      have hr : r.next s = none := by rw [h s, hm, Option.bind_none]
      rw [scan_none hr, scan_none hm]
      rfl
    | some p =>
      obtain ⟨x, n⟩ := p
      have hsize := m.next_size s x n hm
      have hlen : (s.drop n).length = s.length - n := List.length_drop
      rw [scan_some hm] at hall ⊢
      simp only [List.forall_mem_cons] at hall
      obtain ⟨a, hx⟩ := Option.isSome_iff_exists.mp hall.1
      have hnext := h s
      rw [hm, Option.bind_some, hx, Option.map_some] at hnext
      rw [scan_some hnext, List.filterMap_cons_some hx]
      exact congrArg (a :: ·) (ih (s.drop n).length (by omega) (s.drop n) hall.2 rfl)

end Through

/-- A frame is read as its item, and no beginning of it is read as anything. -/
structure Frames (r : Reader α β) (frame : List β) (a : α) : Prop where
  whole : r.next frame = some (a, frame.length)
  cut : ∀ k < frame.length, r.next (frame.take k) = none

variable {frame : α → List β}

theorem scan_cons {a : α} {s : List β} (h : r.Frames (frame a) a) :
    r.scan (frame a ++ s) = (a :: (r.scan s).1, (frame a).length + (r.scan s).2) := by
  rw [scan_some (r.next_append _ s _ _ h.whole), List.drop_left]

/-- A frame behind a stream that is read to its end is read as well, once it is whole. -/
theorem scan_frame {s : List β} {a : α} (hs : (r.scan s).2 = s.length) (h : r.Frames (frame a) a) (k : Nat) :
    r.scan (s ++ (frame a).take k) =
      if k < (frame a).length then r.scan s
      else ((r.scan s).1 ++ [a], (s ++ (frame a).take k).length) := by
  rw [scan_append _ _ hs]
  split_ifs with hk
  · rw [scan_none (h.cut k hk), List.append_nil, Nat.add_zero]
  · have hnil : r.scan ([] : List β) = ([], 0) := rfl
    have hwhole : r.scan (frame a) = ([a], (frame a).length) := by
      have := scan_cons (s := []) h
      rwa [List.append_nil, hnil] at this
    rw [List.take_of_length_le (Nat.le_of_not_lt hk), hwhole, hs, List.length_append]

/-- However a list of frames is cut, the frames that are whole are read and nothing else. -/
theorem scan_take (as : List α) (h : ∀ a ∈ as, r.Frames (frame a) a) (k : Nat) :
    ∃ n ≤ as.length,
      r.scan ((as.flatMap frame).take k) = (as.take n, ((as.take n).flatMap frame).length) ∧
      ((as.take n).flatMap frame).length ≤ k ∧
      ∀ m ≤ as.length, ((as.take m).flatMap frame).length ≤ k → m ≤ n := by
  induction as generalizing k with
  | nil =>
    have hnone : r.next ([] : List β) = none := by
      cases hn : r.next ([] : List β) with
      | none => rfl
      | some p =>
        have := r.next_size [] p.1 p.2 hn
        simp only [List.length_nil] at this
        omega
    exact ⟨0, Nat.le_refl _, by simp [scan_none hnone], by simp, fun m hm _ => hm⟩
  | cons a as ih =>
    have ha := h a List.mem_cons_self
    by_cases hk : k < (frame a).length
    · refine ⟨0, Nat.zero_le _, ?_, by simp, fun m hm hfit => ?_⟩
      · rw [List.flatMap_cons, List.take_append_of_le_length (Nat.le_of_lt hk), scan_none (ha.cut k hk)]
        simp
      · cases m with
        | zero => exact Nat.le_refl _
        | succ m =>
          rw [List.take_succ_cons, List.flatMap_cons, List.length_append] at hfit
          omega
    · obtain ⟨k', rfl⟩ := Nat.exists_eq_add_of_le (Nat.not_lt.mp hk)
      obtain ⟨n, hn, hscan, hle, hmax⟩ := ih (fun b hb => h b (List.mem_cons_of_mem _ hb)) k'
      refine ⟨n + 1, Nat.succ_le_succ hn, ?_, ?_, fun m hm hfit => ?_⟩
      · rw [List.flatMap_cons, List.take_length_add_append, scan_cons ha, hscan]
        simp
      · rw [List.take_succ_cons, List.flatMap_cons, List.length_append]
        omega
      · cases m with
        | zero => exact Nat.zero_le _
        | succ m =>
          rw [List.take_succ_cons, List.flatMap_cons, List.length_append] at hfit
          exact Nat.succ_le_succ (hmax m (Nat.le_of_succ_le_succ hm) (by omega))

end Reader

end Framing
