import Mathlib.Data.List.Nodup
import Mathlib.Tactic.SplitIfs

/-! # Pages of a list that is rebuilt for each page

The next page begins behind the first item with the key of the last one that was handed out, or at the start
when no item has that key. Items that were handed out may be gone by then.
-/

namespace Paging

variable {α β κ : Type*} {key : α → κ}

section Pages

variable [DecidableEq κ]

def startIdx (key : α → κ) (items : List α) (cursor : κ) : Nat :=
  match items.findIdx? fun a => key a = cursor with
  | some i => i + 1
  | none => 0

/-- A page of at most `max` items, and whether it is the last one. -/
def page (items : List α) (start max : Nat) : List α × Bool :=
  let stop := min (start + max) items.length
  ((items.take stop).drop start, items.length ≤ stop)

theorem startIdx_map (f : α → β) (keyOf : β → κ) (items : List α) (cursor : κ) :
    startIdx keyOf (items.map f) cursor = startIdx (fun a => keyOf (f a)) items cursor := by
  unfold startIdx
  rw [List.findIdx?_map]
  rfl

theorem page_map (f : α → β) (items : List α) (start max : Nat) :
    page (items.map f) start max = ((page items start max).1.map f, (page items start max).2) := by
  unfold page
  simp only [List.length_map, List.map_drop, List.map_take]

/-- The first item with its key is found at its place. -/
theorem startIdx_behind (key : α → κ) (front rest : List α) (a : α) (hfirst : ∀ x ∈ front, key x ≠ key a) :
    startIdx key (front ++ a :: rest) (key a) = front.length + 1 := by
  have hnone : (front.findIdx? fun x => key x = key a) = none := by
    rw [List.findIdx?_eq_none_iff]
    intro x hx
    simpa using hfirst x hx
  unfold startIdx
  rw [List.findIdx?_append, hnone, List.findIdx?_cons, if_pos (by simp)]
  simp

theorem page_behind (front rest : List α) (max : Nat) :
    page (front ++ rest) front.length max = (rest.take max, decide (rest.length ≤ max)) := by
  unfold page
  simp only [List.length_append, Prod.mk.injEq, decide_eq_decide]
  constructor
  · rw [List.take_append, List.drop_append]
    have hfront : min (front.length + max) (front.length + rest.length) - front.length = min max rest.length := by
      omega
    rw [hfront, List.take_of_length_le (by omega), List.drop_length, Nat.sub_self, List.drop_zero, List.nil_append,
      List.take_eq_take_iff]
    omega
  · omega

end Pages

/-- Of the first `n` items some are left, in their order, and of the others all. -/
def Left (items now : List α) (n : Nat) : Prop := ∃ front, front.Sublist (items.take n) ∧ now = front ++ items.drop n

theorem Left.refl (items : List α) : Left items items 0 := ⟨[], by simp, by simp⟩

/-- Items that were handed out are taken away. -/
theorem Left.filter {items now : List α} {n : Nat} (h : Left items now n) (keep : α → Bool)
    (hkeep : ∀ a ∈ items.drop n, keep a = true) : Left items (now.filter keep) n := by
  obtain ⟨front, hfront, rfl⟩ := h
  refine ⟨front.filter keep, List.filter_sublist.trans hfront, ?_⟩
  rw [List.filter_append, List.filter_eq_self.mpr hkeep]

/-- More of the items are handed out. -/
theorem Left.mono {items now : List α} {n m : Nat} (h : Left items now n) (hnm : n ≤ m) : Left items now m := by
  obtain ⟨front, hfront, rfl⟩ := h
  obtain ⟨k, rfl⟩ := Nat.exists_eq_add_of_le hnm
  refine ⟨front ++ (items.drop n).take k, ?_, ?_⟩
  · rw [List.take_add]
    exact hfront.append (List.Sublist.refl _)
  · rw [List.append_assoc, ← List.drop_drop, List.take_append_drop]

/-- If the last item that was handed out is left, then all that follows it was not handed out. -/
theorem Left.behind_last {items now : List α} {n : Nat} {last : α} (h : Left items now n)
    (hnodup : (items.map key).Nodup) (hlast : (items.take n).getLast? = some last) (hmem : key last ∈ now.map key) :
    ∃ front, now = front ++ last :: items.drop n ∧ ∀ x ∈ front, key x ≠ key last := by
  obtain ⟨front, hfront, rfl⟩ := h
  obtain ⟨done, hdone⟩ := List.getLast?_eq_some_iff.mp hlast
  have hsplit : items = done ++ (last :: items.drop n) := by
    rw [← List.singleton_append, ← List.append_assoc, ← hdone, List.take_append_drop]
  have hkeys := hnodup
  rw [hsplit, List.map_append, List.map_cons, List.nodup_append] at hkeys
  obtain ⟨-, hrest, hdisjoint⟩ := hkeys
  have hafter : key last ∉ (items.drop n).map key := (List.nodup_cons.mp hrest).1
  have hinit : ∀ x ∈ done, key x ≠ key last := fun x hx =>
    hdisjoint _ (List.mem_map_of_mem hx) _ List.mem_cons_self
  rw [hdone] at hfront
  obtain ⟨before, tail, rfl, hbefore, htail⟩ := List.sublist_append_iff.mp hfront
  rcases List.sublist_singleton.mp htail with rfl | rfl
  · rw [List.append_nil, List.map_append, List.mem_append] at hmem
    rcases hmem with hmem | hmem
    · obtain ⟨x, hx, hkey⟩ := List.mem_map.mp hmem
      exact absurd hkey (hinit x (hbefore.subset hx))
    · exact absurd hmem hafter
  · exact ⟨before, by rw [List.append_assoc, List.singleton_append], fun x hx => hinit x (hbefore.subset hx)⟩

end Paging
