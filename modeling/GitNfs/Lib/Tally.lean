import Mathlib.Data.List.AList
import Mathlib.Data.List.Dedup

/-! # Counting with a map -/

namespace Tally

variable {κ β : Type}

/-- What an iteration over a map gives, in one of its orders. -/
def pairs (m : AList fun _ : κ => β) : List (κ × β) := m.entries.map fun e => (e.1, e.2)

theorem pairs_keys_nodup (m : AList fun _ : κ => β) : ((pairs m).map (·.1)).Nodup := by
  have hkeys := m.keys_nodup
  rw [AList.keys, List.keys] at hkeys
  rw [pairs, List.map_map]
  exact hkeys

variable [DecidableEq κ]

theorem mem_pairs {m : AList fun _ : κ => β} {k : κ} {v : β} : (k, v) ∈ pairs m ↔ m.lookup k = some v := by
  rw [pairs, ← Option.mem_def, AList.mem_lookup_iff, List.mem_map]
  constructor
  · rintro ⟨e, he, heq⟩
    cases e
    cases heq
    exact he
  · exact fun h => ⟨_, h, rfl⟩

/-- `*counts.entry(k).or_insert(0) += 1` -/
def add (counts : AList fun _ : κ => Nat) (k : κ) : AList fun _ : κ => Nat :=
  counts.insert k ((counts.lookup k).getD 0 + 1)

def tally (l : List κ) : AList fun _ : κ => Nat := l.foldl add ∅

theorem lookup_add (counts : AList fun _ : κ => Nat) (k k' : κ) :
    (add counts k').lookup k = if k = k' then some ((counts.lookup k).getD 0 + 1) else counts.lookup k := by
  unfold add
  split_ifs with h
  · subst h
    rw [AList.lookup_insert]
  · rw [AList.lookup_insert_ne h]

theorem lookup_foldl (l : List κ) (counts : AList fun _ : κ => Nat) (k : κ) :
    (l.foldl add counts).lookup k =
      if k ∈ l then some ((counts.lookup k).getD 0 + l.count k) else counts.lookup k := by
  induction l generalizing counts with
  | nil => simp
  | cons a l ih =>
    rw [List.foldl_cons, ih, lookup_add]
    by_cases ha : k = a
    · subst ha
      by_cases hl : k ∈ l
      · simp only [hl, if_true, List.mem_cons_self, List.count_cons_self, Option.getD_some]
        congr 1
        omega
      · simp [hl, List.count_eq_zero_of_not_mem hl]
    · simp only [ha, if_false, List.mem_cons, false_or, List.count_cons_of_ne (Ne.symm ha)]

theorem lookup_tally (l : List κ) (k : κ) : (tally l).lookup k = if k ∈ l then some (l.count k) else none := by
  rw [tally, lookup_foldl]
  simp

/-- Every element once, with how often it is there. -/
theorem tally_pairs_perm (l : List κ) : (pairs (tally l)).Perm (l.dedup.map fun k => (k, l.count k)) := by
  have hnodup : (l.dedup.map fun k => (k, l.count k)).Nodup :=
    l.nodup_dedup.map fun a b hab => (Prod.mk.inj hab).1
  rw [List.perm_ext_iff_of_nodup (pairs_keys_nodup _).of_map hnodup]
  rintro ⟨k, n⟩
  rw [mem_pairs, lookup_tally, List.mem_map]
  constructor
  · intro h
    split_ifs at h with hk
    cases h
    exact ⟨k, List.mem_dedup.mpr hk, rfl⟩
  · rintro ⟨k', hk', heq⟩
    obtain ⟨rfl, rfl⟩ := Prod.mk.inj heq
    rw [if_pos (List.mem_dedup.mp hk')]

end Tally
