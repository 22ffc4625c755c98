import Mathlib.Data.List.Induction
import Mathlib.Data.Option.Basic

/-! # Walks along names

Places, and for each of them the place that a name leads to. What one name keeps of a relation between two
such graphs a whole path keeps, and graphs that differ in some edges have the same paths without these.
-/

namespace GitNfs

namespace Walk

variable {P Q N : Type}

/-- Where a path of names leads. -/
def walk (child : P → N → Option P) : P → List N → Option P
  | p, [] => some p
  | p, n :: ns => (child p n).bind fun q => walk child q ns

/-- The path takes no edge that is cut. -/
def Avoids (child : P → N → Option P) (cut : P → N → Prop) : P → List N → Prop
  | _, [] => True
  | p, n :: ns => ¬ cut p n ∧ ∀ q, child p n = some q → Avoids child cut q ns

variable {child : P → N → Option P} {child' : Q → N → Option Q} {cut : P → N → Prop}

theorem walk_append (p : P) (ns ms : List N) :
    walk child p (ns ++ ms) = (walk child p ns).bind fun q => walk child q ms := by
  induction ns generalizing p with
  | nil => rfl
  | cons n ns ih => simp only [List.cons_append, walk, ih, Option.bind_assoc]

theorem walk_concat (p : P) (ns : List N) (n : N) :
    walk child p (ns ++ [n]) = (walk child p ns).bind fun q => child q n := by
  rw [walk_append]
  congr
  funext q
  simp [walk]

/-! ## Two graphs -/

theorem rel_some_left {R : P → Q → Prop} {p : P} {b : Option Q} (h : Option.Rel R (some p) b) :
    ∃ q, b = some q ∧ R p q := by
  cases h with
  | some hr => exact ⟨_, rfl, hr⟩

theorem rel_some_right {R : P → Q → Prop} {q : Q} {a : Option P} (h : Option.Rel R a (some q)) :
    ∃ p, a = some p ∧ R p q := by
  cases h with
  | some hr => exact ⟨_, rfl, hr⟩

theorem rel_trans {A B C : Type} {R : A → B → Prop} {S : B → C → Prop} {T : A → C → Prop}
    (hT : ∀ a b c, R a b → S b c → T a c) {a : Option A} {b : Option B} {c : Option C} (h : Option.Rel R a b)
    (h' : Option.Rel S b c) : Option.Rel T a c := by
  cases h with
  | none =>
    cases h' with
    | none => exact .none
  | some hr =>
    cases h' with
    | some hs => exact .some (hT _ _ _ hr hs)

/-- A relation that every edge keeps holds between the ends of a path. -/
theorem walk_rel {R : P → Q → Prop} (hedge : ∀ p q n, R p q → Option.Rel R (child p n) (child' q n)) {p : P}
    {q : Q} (ns : List N) (h : R p q) : Option.Rel R (walk child p ns) (walk child' q ns) := by
  induction ns generalizing p q with
  | nil => exact .some h
  | cons n ns ih =>
    have hnext := hedge p q n h
    simp only [walk]
    cases hp : child p n with
    | none =>
      rw [hp] at hnext
      cases hq : child' q n with
      | none => exact .none
      | some q' =>
        rw [hq] at hnext
        cases hnext
    | some p' =>
      rw [hp] at hnext
      obtain ⟨q', hq, hr⟩ := rel_some_left hnext
      rw [hq]
      exact ih hr

/-- Two graphs that agree on the edges that are not cut have the same paths without such edges. -/
theorem walk_eq {other : P → N → Option P} {I : P → Prop}
    (hkeep : ∀ p n q, I p → child p n = some q → I q)
    (hedge : ∀ p n, I p → ¬ cut p n → other p n = child p n) {p : P} (ns : List N) (hp : I p)
    (havoid : Avoids child cut p ns) : walk other p ns = walk child p ns := by
  induction ns generalizing p with
  | nil => rfl
  | cons n ns ih =>
    obtain ⟨hcut, hrest⟩ := havoid
    simp only [walk, hedge p n hp hcut]
    cases hq : child p n with
    | none => rfl
    | some q => exact ih (hkeep p n q hp hq) (hrest q hq)

theorem avoids_iff (p : P) (ns : List N) :
    Avoids child cut p ns ↔
      ∀ done n rest q, ns = done ++ n :: rest → walk child p done = some q → ¬ cut q n := by
  induction ns generalizing p with
  | nil => simp [Avoids]
  | cons n ns ih =>
    simp only [Avoids, ih]
    constructor
    · rintro ⟨hcut, hrest⟩ done m rest q heq hwalk
      cases done with
      | nil =>
        simp only [List.nil_append, List.cons.injEq] at heq
        cases hwalk
        exact heq.1 ▸ hcut
      | cons d done =>
        simp only [List.cons_append, List.cons.injEq] at heq
        obtain ⟨rfl, heq⟩ := heq
        obtain ⟨p', hp', hwalk⟩ := Option.bind_eq_some_iff.mp hwalk
        exact hrest p' hp' done m rest q heq hwalk
    · intro h
      refine ⟨h [] n ns p rfl rfl, fun p' hp' done m rest q heq hwalk => ?_⟩
      exact h (n :: done) m rest q (by rw [heq, List.cons_append]) (by simp [walk, hp', hwalk])

/-- On the way to a place it is reached for the first time. -/
theorem exists_first {p q : P} {ns : List N} (h : walk child p ns = some q) :
    ∃ ms, walk child p ms = some q ∧
      ∀ done n rest, ms = done ++ n :: rest → walk child p done ≠ some q := by
  induction hlen : ns.length using Nat.strongRecOn generalizing ns with
  | ind len ih =>
    by_cases hfirst : ∀ done n rest, ns = done ++ n :: rest → walk child p done ≠ some q
    · exact ⟨ns, h, hfirst⟩
    · simp only [not_forall, not_not] at hfirst
      obtain ⟨done, n, rest, rfl, hdone⟩ := hfirst
      refine ih done.length ?_ hdone rfl
      rw [← hlen]
      simp

/-! ## One path to a place -/

/-- Where a single edge leads to each of some places, and none to the start, one path leads to each. -/
theorem walk_unique (own : P → Prop) {r : P} (hroot : ∀ p n, child p n ≠ some r)
    (hedge : ∀ q, own q → ∀ p n, child p n = some q → own p)
    (hone : ∀ q, own q → ∀ p n p' n', child p n = some q → child p' n' = some q → p = p' ∧ n = n')
    {q : P} (hq : own q) {ns ms : List N} (hns : walk child r ns = some q) (hms : walk child r ms = some q) :
    ns = ms := by
  induction ns using List.reverseRecOn generalizing q ms with
  | nil =>
    cases hns
    rcases List.eq_nil_or_concat ms with rfl | ⟨ms', m, rfl⟩
    · rfl
    · rw [List.concat_eq_append, walk_concat] at hms
      obtain ⟨p, -, hp⟩ := Option.bind_eq_some_iff.mp hms
      exact absurd hp (hroot p m)
  | append_singleton ns n ih =>
    rw [walk_concat] at hns
    obtain ⟨p, hp, hn⟩ := Option.bind_eq_some_iff.mp hns
    rcases List.eq_nil_or_concat ms with rfl | ⟨ms', m, rfl⟩
    · cases hms
      exact absurd hn (hroot p n)
    · rw [List.concat_eq_append, walk_concat] at hms
      obtain ⟨p', hp', hm⟩ := Option.bind_eq_some_iff.mp hms
      obtain ⟨rfl, rfl⟩ := hone q hq p n p' m hn hm
      rw [ih (hedge q hq p n hn) hp hp', List.concat_eq_append]

end Walk

end GitNfs
