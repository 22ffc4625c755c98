import GitNfs.Lib.Run
import Mathlib.Algebra.Notation.Defs
import Mathlib.Data.List.Basic

/-! # Extents

An array that is zero from its end on, so that a write past the end leaves zeros in the gap. Extents are
edited under keys, one at a time.
-/

structure Extent (α : Type*) [Zero α] where
  len : Nat
  cell : Nat → α
  beyond : ∀ k, len ≤ k → cell k = 0

namespace Extent

variable {α : Type*} [Zero α]

theorem eq_of {a b : Extent α} (hlen : a.len = b.len) (hcell : ∀ k < a.len, a.cell k = b.cell k) : a = b := by
  obtain ⟨len, cell, ha⟩ := a
  obtain ⟨len', cell', hb⟩ := b
  obtain rfl : len = len' := hlen
  obtain rfl : cell = cell' := by
    funext k
    rcases Nat.lt_or_ge k len with hk | hk
    · exact hcell k hk
    · rw [ha k hk, hb k hk]
  rfl

/-- An array, then zeros. -/
def ofList (l : List α) : Extent α where
  len := l.length
  cell k := (l[k]?).getD 0
  beyond _ hk := by rw [List.getElem?_eq_none hk, Option.getD_none]

def empty : Extent α := ofList []

def write (a : Extent α) (offset : Nat) (data : List α) : Extent α where
  len := if data = [] then a.len else max a.len (offset + data.length)
  cell k := if offset ≤ k ∧ k < offset + data.length then (data[k - offset]?).getD 0 else a.cell k
  beyond k hk := by
    split_ifs at hk with hdata
    · rw [if_neg (by simp only [hdata, List.length_nil]; omega), a.beyond k hk]
    · rw [if_neg (by omega), a.beyond k (by omega)]

def resize (a : Extent α) (len : Nat) : Extent α where
  len := len
  cell k := if k < len then a.cell k else 0
  beyond _ hk := if_neg (Nat.not_lt.mpr hk)

/-- At most `count` elements from `offset` on. -/
def slice (a : Extent α) (offset count : Nat) : List α :=
  (List.range (min count (a.len - offset))).map fun k => a.cell (offset + k)

/-- The slice reaches the end. -/
def endsBy (a : Extent α) (offset count : Nat) : Bool := a.len ≤ offset + count

/-! ## Lists as extents -/

theorem slice_ofList (l : List α) (offset count : Nat) :
    (ofList l).slice offset count = (l.drop offset).take count := by
  apply List.ext_getElem
  · simp [slice, ofList]
  · intro k hk _
    have hlt : offset + k < l.length := by
      simp only [slice, ofList, List.length_map, List.length_range] at hk
      omega
    simp [slice, ofList, List.getElem?_eq_getElem hlt]

theorem write_nil (a : Extent α) (offset : Nat) : a.write offset [] = a := by
  apply eq_of
  · simp only [write, if_true]
  · intro k _
    simp only [write]
    rw [if_neg (by simp only [List.length_nil]; omega)]

/-- A list that is cut or filled up with zeros to a length. -/
theorem length_fit (l : List α) (n : Nat) : (l.take n ++ List.replicate (n - l.length) 0).length = n := by
  simp only [List.length_append, List.length_take, List.length_replicate]
  omega

theorem getElem?_fit (l : List α) {n k : Nat} (hk : k < n) :
    ((l.take n ++ List.replicate (n - l.length) 0)[k]?).getD 0 = (l[k]?).getD 0 := by
  rcases Nat.lt_or_ge k l.length with hkl | hkl
  · rw [List.getElem?_append_left (by rw [List.length_take]; omega), List.getElem?_take_of_lt hk]
  · rw [List.getElem?_append_right (by rw [List.length_take]; omega), List.getElem?_eq_none hkl]
    rw [List.getElem?_replicate]
    split_ifs <;> rfl

/-- The list with a gap filled and the old elements under the new ones replaced. -/
theorem ofList_write (l : List α) (offset : Nat) {data : List α} (hdata : data ≠ []) :
    ofList (l.take offset ++ List.replicate (offset - l.length) 0 ++ data ++ l.drop (offset + data.length)) =
      (ofList l).write offset data := by
  have hfit := length_fit l offset
  apply eq_of
  · simp only [ofList, write, if_neg hdata, List.length_append, List.length_drop] at hfit ⊢
    omega
  · intro k _
    simp only [ofList, write]
    rw [List.append_assoc]
    rcases Nat.lt_or_ge k offset with hk | hk
    · rw [if_neg (by omega), List.getElem?_append_left (by omega), getElem?_fit l hk]
    · rw [List.getElem?_append_right (by omega), hfit]
      rcases Nat.lt_or_ge k (offset + data.length) with hkd | hkd
      · rw [if_pos ⟨hk, hkd⟩, List.getElem?_append_left (by omega)]
      · rw [if_neg (by omega), List.getElem?_append_right (by omega), List.getElem?_drop]
        congr 2
        omega

theorem ofList_resize (l : List α) (len : Nat) :
    ofList (l.take len ++ List.replicate (len - l.length) 0) = (ofList l).resize len := by
  apply eq_of
  · exact length_fit l len
  · intro k hk
    replace hk : k < len := lt_of_lt_of_eq hk (length_fit l len)
    simp only [ofList, resize, if_pos hk]
    exact getElem?_fit l hk

/-! ## Edits under keys -/

inductive Edit (α : Type*) where
  | clear
  | write (offset : Nat) (data : List α)
  | resize (len : Nat)
  deriving DecidableEq, Repr

def Edit.apply (a : Extent α) : Edit α → Extent α
  | clear => empty
  | write offset data => a.write offset data
  | resize len => a.resize len

variable {ι : Type*} [DecidableEq ι]

/-- What an edit under some key does to the extent under the key `i`. -/
def touch (i : ι) (a : Extent α) : Option (ι × Edit α) → Extent α
  | some (j, e) => if j = i then e.apply a else a
  | none => a

theorem touch_self (i : ι) (a : Extent α) (e : Edit α) : touch i a (some (i, e)) = e.apply a := if_pos rfl

theorem touch_of_ne {i j : ι} (h : j ≠ i) (a : Extent α) (e : Edit α) : touch i a (some (j, e)) = a := if_neg h

section Replay

variable {σ β : Type*} (step : σ → β → Option σ) (edit : σ → β → Option (ι × Edit α))

/-- What a run does to the extent under the key `i`: its edits, one after the other. -/
def replay (i : ι) : σ → Extent α → List β → Extent α
  | _, a, [] => a
  | s, a, b :: bs =>
    match step s b with
    | some s' => replay i s' (touch i a (edit s b)) bs
    | none => a

variable {step edit}

/-- An extent that every step edits as it says, while it is there, is the replay of the run. -/
theorem replay_run {ok : σ → β → Prop} {I : σ → Prop} (live : σ → Prop) (extent : σ → Option (Extent α)) {i : ι}
    (hstep : ∀ s b s', I s → ok s b → step s b = some s' → I s' ∧
      ∀ a, extent s = some a → live s' → extent s' = some (touch i a (edit s b)))
    {s s' : σ} {a : Extent α} {bs : List β} (hmeets : Run.Meets step ok s bs)
    (hrun : Run.run step s bs = some s') (hs : I s) (ha : extent s = some a)
    (hlive : ∀ done rest t, bs = done ++ rest → Run.run step s done = some t → live t) :
    extent s' = some (replay step edit i s a bs) := by
  induction bs generalizing s a with
  | nil =>
    simp only [Run.run, Option.some.injEq] at hrun
    exact hrun ▸ ha
  | cons b bs ih =>
    obtain ⟨t, ht, hrun⟩ := Run.run_cons.mp hrun
    obtain ⟨hI, hedit⟩ := hstep s b t hs hmeets.1 ht
    have hthere : live t := hlive [b] bs t rfl (Run.run_cons.mpr ⟨t, ht, rfl⟩)
    simp only [replay, ht]
    refine ih (hmeets.2 t ht) hrun hI (hedit a ha hthere) fun done rest u hbs hdone => ?_
    exact hlive (b :: done) rest u (by rw [hbs, List.cons_append]) (Run.run_cons.mpr ⟨t, ht, hdone⟩)

end Replay

end Extent
