import Mathlib.Data.Finset.Card
import Mathlib.Data.Finset.Dedup
import Mathlib.Logic.Relation

/-! # Waves

A walk through a graph, level by level: the points that a level leads to and that were not seen before are the
next level. In a finite graph it ends, and has seen what can be reached.
-/

namespace Waves

variable {α : Type*} [DecidableEq α]

structure Frontier (α : Type*) where
  visited : List α
  next : List α

namespace Frontier

/-- A point that is new is seen, and stands in the next level. -/
def visit (f : Frontier α) (x : α) : Frontier α :=
  if f.visited.contains x then f else ⟨x :: f.visited, f.next ++ [x]⟩

def visitAll (f : Frontier α) (xs : List α) : Frontier α := xs.foldl visit f

theorem visitAll_cons (f : Frontier α) (x : α) (xs : List α) : f.visitAll (x :: xs) = (f.visit x).visitAll xs := rfl

theorem mem_visit {f : Frontier α} {x y : α} : y ∈ (f.visit x).visited ↔ y ∈ f.visited ∨ y = x := by
  unfold visit
  split
  · rename_i h
    rw [List.contains_iff_mem] at h
    constructor
    · exact .inl
    · rintro (hy | rfl)
      · exact hy
      · exact h
  · rw [List.mem_cons]
    exact or_comm

theorem mem_visitAll {f : Frontier α} {xs : List α} {y : α} :
    y ∈ (f.visitAll xs).visited ↔ y ∈ f.visited ∨ y ∈ xs := by
  induction xs generalizing f with
  | nil => simp [visitAll]
  | cons x xs ih => rw [visitAll_cons, ih, mem_visit, List.mem_cons, or_assoc]

/-- Nothing is seen twice, and all that is new stands in the next level. -/
structure Grows (f f' : Frontier α) : Prop where
  nodup : f.visited.Nodup → f'.visited.Nodup
  length : f'.visited.length + f.next.length = f.visited.length + f'.next.length
  new : ∀ y ∈ f'.visited, y ∈ f.visited ∨ y ∈ f'.next
  next : ∀ y ∈ f.next, y ∈ f'.next
  seen : (∀ y ∈ f.next, y ∈ f.visited) → ∀ y ∈ f'.next, y ∈ f'.visited

omit [DecidableEq α] in
theorem Grows.refl (f : Frontier α) : Grows f f := ⟨id, rfl, fun _ => .inl, fun _ => id, id⟩

omit [DecidableEq α] in
theorem Grows.trans {f g h : Frontier α} (hfg : Grows f g) (hgh : Grows g h) : Grows f h := by
  have hlength := hfg.length
  have hlength' := hgh.length
  refine ⟨fun hf => hgh.nodup (hfg.nodup hf), by omega, fun y hy => ?_, fun y hy => hgh.next y (hfg.next y hy),
    fun hf => hgh.seen (hfg.seen hf)⟩
  rcases hgh.new y hy with hy | hy
  · exact (hfg.new y hy).imp_right (hgh.next y)
  · exact .inr hy

theorem visit_grows (f : Frontier α) (x : α) : Grows f (f.visit x) := by
  unfold visit
  split
  · exact .refl f
  · rename_i h
    rw [List.contains_iff_mem] at h
    refine ⟨fun hf => List.nodup_cons.mpr ⟨h, hf⟩, ?_, ?_, ?_, ?_⟩
    · simp only [List.length_cons, List.length_append, List.length_nil]
      omega
    · intro y hy
      rcases List.mem_cons.mp hy with rfl | hy
      · exact .inr (by simp)
      · exact .inl hy
    · intro y hy
      exact List.mem_append_left _ hy
    · intro hf y hy
      rcases List.mem_append.mp hy with hy | hy
      · exact List.mem_cons_of_mem _ (hf y hy)
      · exact List.mem_cons.mpr (.inl (List.mem_singleton.mp hy))

theorem visitAll_grows (f : Frontier α) (xs : List α) : Grows f (f.visitAll xs) := by
  induction xs generalizing f with
  | nil => exact .refl f
  | cons x xs ih => exact (visit_grows f x).trans (ih _)

end Frontier

open Frontier

variable (succ : α → List α)

/-- All that a level leads to. -/
def wave (level : List α) (f : Frontier α) : Frontier α := level.foldl (fun f x => f.visitAll (succ x)) f

/-- What is seen when a level is empty. -/
def waves : Nat → List α → List α → Option (List α)
  | _, [], visited => some visited
  | 0, _ :: _, _ => none
  | n + 1, x :: level, visited =>
    let f := wave succ (x :: level) ⟨visited, []⟩
    waves n f.next f.visited

variable {succ}

theorem mem_wave {level : List α} {f : Frontier α} {y : α} :
    y ∈ (wave succ level f).visited ↔ y ∈ f.visited ∨ ∃ x ∈ level, y ∈ succ x := by
  induction level generalizing f with
  | nil => simp [wave]
  | cons x level ih =>
    have hcons : wave succ (x :: level) f = wave succ level (f.visitAll (succ x)) := rfl
    rw [hcons, ih, mem_visitAll]
    simp only [List.exists_mem_cons_iff, or_assoc]

theorem wave_grows (level : List α) (f : Frontier α) : Grows f (wave succ level f) := by
  induction level generalizing f with
  | nil => exact .refl f
  | cons x level ih => exact (visitAll_grows f (succ x)).trans (ih _)

omit [DecidableEq α] in
theorem mem_closed {visited : List α} (h : ∀ x ∈ visited, ∀ y ∈ succ x, y ∈ visited) (y : α) :
    y ∈ visited ↔ ∃ x ∈ visited, Relation.ReflTransGen (fun a b => b ∈ succ a) x y := by
  refine ⟨fun hy => ⟨y, hy, .refl⟩, ?_⟩
  rintro ⟨x, hx, hreach⟩
  induction hreach with
  | refl => exact hx
  | tail _ hstep ih => exact h _ ih _ hstep

/-- What is seen at the end is what was seen before and what can be reached from it. -/
theorem mem_waves {n : Nat} {level visited out : List α} (h : waves succ n level visited = some out)
    (hlevel : ∀ x ∈ level, x ∈ visited) (hclosed : ∀ x ∈ visited, x ∈ level ∨ ∀ y ∈ succ x, y ∈ visited) :
    ∀ y, y ∈ out ↔ ∃ x ∈ visited, Relation.ReflTransGen (fun a b => b ∈ succ a) x y := by
  induction n generalizing level visited with
  | zero =>
    cases level with
    | cons x level => cases h
    | nil =>
      obtain rfl := Option.some.inj h
      exact mem_closed fun x hx => (hclosed x hx).resolve_left List.not_mem_nil
  | succ n ih =>
    cases level with
    | nil =>
      obtain rfl := Option.some.inj h
      exact mem_closed fun x hx => (hclosed x hx).resolve_left List.not_mem_nil
    | cons x level =>
      have hgrows : Grows ⟨visited, []⟩ (wave succ (x :: level) ⟨visited, []⟩) := wave_grows _ _
      have hmore := ih h (hgrows.seen (by simp)) ?_
      · intro y
        rw [hmore y]
        constructor
        · rintro ⟨z, hz, hreach⟩
          rcases mem_wave.mp hz with hz | ⟨w, hw, hstep⟩
          · exact ⟨z, hz, hreach⟩
          · exact ⟨w, hlevel w hw, .head hstep hreach⟩
        · rintro ⟨z, hz, hreach⟩
          exact ⟨z, mem_wave.mpr (.inl hz), hreach⟩
      · intro z hz
        rcases hgrows.new z hz with hz | hz
        · refine .inr fun y hy => mem_wave.mpr ?_
          rcases hclosed z hz with hz | hz
          · exact .inr ⟨z, hz, hy⟩
          · exact .inl (hz y hy)
        · exact .inl hz

/-- In a finite graph some level is empty. -/
theorem waves_isSome (u : Finset α) (hsucc : ∀ x y, y ∈ succ x → y ∈ u) {n : Nat} {level visited : List α}
    (hnodup : visited.Nodup) (hvisited : ∀ x ∈ visited, x ∈ u) (hn : u.card < n + visited.length) :
    (waves succ n level visited).isSome := by
  induction n generalizing level visited with
  | zero =>
    have hle : visited.toFinset.card ≤ u.card :=
      Finset.card_le_card fun x hx => hvisited x (List.mem_toFinset.mp hx)
    rw [List.toFinset_card_of_nodup hnodup] at hle
    omega
  | succ n ih =>
    cases level with
    | nil => rfl
    | cons x level =>
      have hgrows : Grows ⟨visited, []⟩ (wave succ (x :: level) ⟨visited, []⟩) := wave_grows _ _
      have hlength := hgrows.length
      rw [waves]
      cases hnext : (wave succ (x :: level) ⟨visited, []⟩).next with
      | nil => cases n <;> rfl
      | cons y next =>
        rw [hnext, List.length_cons] at hlength
        simp only [List.length_nil] at hlength
        refine ih (hgrows.nodup hnodup) ?_ (by omega)
        intro z hz
        rcases mem_wave.mp hz with hz | ⟨w, _, hw⟩
        · exact hvisited z hz
        · exact hsucc w z hw

end Waves
