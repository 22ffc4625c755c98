import Mathlib.Data.List.TakeDrop

/-! # Reading off the front

A function that takes a value off the front of a list looks at what it takes and at nothing behind it.
-/

namespace Reading

variable {α γ β ε : Type*}

def Reads (f : List β → Except ε (α × List β)) : Prop :=
  ∀ s a rest, f s = .ok (a, rest) → ∃ front, s = front ++ rest ∧ ∀ t, f (front ++ t) = .ok (a, t)

variable {f : List β → Except ε (α × List β)} {g : α → List β → Except ε (γ × List β)}

namespace Reads

theorem append (hf : Reads f) {s rest : List β} {a : α} (h : f s = .ok (a, rest)) (z : List β) :
    f (s ++ z) = .ok (a, rest ++ z) := by
  obtain ⟨front, rfl, hfront⟩ := hf s a rest h
  rw [List.append_assoc]
  exact hfront _

theorem length_le (hf : Reads f) {s rest : List β} {a : α} (h : f s = .ok (a, rest)) :
    rest.length ≤ s.length := by
  obtain ⟨front, rfl, -⟩ := hf s a rest h
  rw [List.length_append]
  exact Nat.le_add_left _ _

/-- What is cut off behind what is taken is not missed. -/
theorem take (hf : Reads f) {s rest : List β} {a : α} (h : f s = .ok (a, rest)) {k : Nat}
    (hk : s.length - rest.length ≤ k) :
    f (s.take k) = .ok (a, rest.take (k - (s.length - rest.length))) := by
  obtain ⟨front, rfl, hfront⟩ := hf s a rest h
  have hfrontLen : (front ++ rest).length - rest.length = front.length := by
    rw [List.length_append, Nat.add_sub_cancel]
  rw [hfrontLen] at hk ⊢
  rw [List.take_append, List.take_of_length_le hk]
  exact hfront _

/-- If the value is there although something was cut off, the same value is there in the whole. -/
theorem of_take (hf : Reads f) {s rest : List β} {a : α} {k : Nat} (h : f (s.take k) = .ok (a, rest)) :
    f s = .ok (a, rest ++ s.drop k) := by
  have := hf.append h (s.drop k)
  rwa [List.take_append_drop] at this

theorem pure (a : α) : Reads (fun s : List β => (.ok (a, s) : Except ε (α × List β))) := by
  intro s b rest h
  obtain ⟨rfl, rfl⟩ := Prod.mk.inj (Except.ok.inj h)
  exact ⟨[], rfl, fun t => rfl⟩

theorem error (e : ε) : Reads (fun _ : List β => (.error e : Except ε (α × List β))) := by
  intro s b rest h
  exact absurd h (by simp)

/-- One after the other. -/
theorem andThen {h : List β → Except ε (γ × List β)} (hf : Reads f) (hg : ∀ a, Reads (g a))
    (herror : ∀ s e, f s = .error e → ∃ e', h s = .error e')
    (hok : ∀ s a rest, f s = .ok (a, rest) → h s = g a rest) : Reads h := by
  intro s c rest hs
  cases hfs : f s with
  | error e =>
    obtain ⟨e', he'⟩ := herror s e hfs
    rw [he'] at hs
    exact absurd hs (by simp)
  | ok r =>
    obtain ⟨a, mid⟩ := r
    rw [hok s a mid hfs] at hs
    obtain ⟨front, rfl, hfront⟩ := hf s a mid hfs
    obtain ⟨front', rfl, hfront'⟩ := hg a mid c rest hs
    refine ⟨front ++ front', by rw [List.append_assoc], fun t => ?_⟩
    rw [List.append_assoc, hok _ _ _ (hfront _), hfront']

/-- A first element and what is read behind it. -/
theorem cons {e : ε} (hnil : f [] = .error e) (hcons : ∀ c, Reads fun s => f (c :: s)) : Reads f := by
  intro s a rest h
  cases s with
  | nil =>
    rw [hnil] at h
    exact absurd h (by simp)
  | cons c s =>
    obtain ⟨front, rfl, hfront⟩ := hcons c s a rest h
    exact ⟨c :: front, rfl, hfront⟩

end Reads

end Reading
