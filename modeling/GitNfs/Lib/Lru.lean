import Mathlib.Data.List.Nodup

/-! # Least recently used

A cache of bounded size that drops the entry that was not used for the longest time. What is in it was put
there, and an answer is an entry.
-/

structure LruCache (κ β : Type) where
  capacity : Nat
  /-- The most recently used entry stands first. -/
  entries : List (κ × β)
  nodup : (entries.map Prod.fst).Nodup
  length_le : entries.length ≤ capacity

namespace LruCache

variable {κ β : Type} [DecidableEq κ]

def empty (capacity : Nat) : LruCache κ β := ⟨capacity, [], List.nodup_nil, Nat.zero_le _⟩

/-- The entries of all the other keys. -/
def others (k : κ) (entries : List (κ × β)) : List (κ × β) := entries.filter fun e => e.1 ≠ k

theorem mem_others {k : κ} {entries : List (κ × β)} {e : κ × β} :
    e ∈ others k entries ↔ e ∈ entries ∧ e.1 ≠ k := by
  unfold others
  rw [List.mem_filter, decide_eq_true_eq]

theorem nodup_cons_others (k : κ) (v : β) {entries : List (κ × β)} (h : (entries.map Prod.fst).Nodup) :
    (((k, v) :: others k entries).map Prod.fst).Nodup := by
  rw [List.map_cons, List.nodup_cons]
  refine ⟨?_, h.sublist (List.Sublist.map _ List.filter_sublist)⟩
  intro hk
  obtain ⟨e, he, heq⟩ := List.mem_map.mp hk
  exact (mem_others.mp he).2 heq

def put (c : LruCache κ β) (k : κ) (v : β) : LruCache κ β where
  capacity := c.capacity
  entries := ((k, v) :: others k c.entries).take c.capacity
  nodup := (nodup_cons_others k v c.nodup).sublist (List.Sublist.map _ (List.take_sublist _ _))
  length_le := by
    rw [List.length_take]
    exact Nat.min_le_left _ _

def peek (c : LruCache κ β) (k : κ) : Option β := (c.entries.find? fun e => e.1 = k).map Prod.snd

/-- The entry that is found is used now. -/
def get (c : LruCache κ β) (k : κ) : Option β × LruCache κ β :=
  match c.peek k with
  | none => (none, c)
  | some v => (some v, c.put k v)

theorem mem_put {c : LruCache κ β} {k : κ} {v : β} {e : κ × β} (h : e ∈ (c.put k v).entries) :
    e ∈ c.entries ∨ e = (k, v) := by
  rcases List.mem_cons.mp (List.mem_of_mem_take h) with rfl | h
  · exact .inr rfl
  · exact .inl (mem_others.mp h).1

theorem mem_of_peek {c : LruCache κ β} {k : κ} {v : β} (h : c.peek k = some v) : (k, v) ∈ c.entries := by
  unfold peek at h
  obtain ⟨e, he, rfl⟩ := Option.map_eq_some_iff.mp h
  have hk : e.1 = k := by simpa using List.find?_some he
  rw [← hk]
  exact List.mem_of_find?_eq_some he

/-- An answer is an entry, and to ask brings no new ones. -/
theorem get_entries {c c' : LruCache κ β} {k : κ} {found : Option β} (h : c.get k = (found, c')) :
    (∀ v, found = some v → (k, v) ∈ c.entries) ∧ ∀ e ∈ c'.entries, e ∈ c.entries := by
  unfold get at h
  split at h
  · obtain ⟨rfl, rfl⟩ := Prod.mk.inj h
    exact ⟨fun v hv => absurd hv (by simp), fun e he => he⟩
  · rename_i v hv
    obtain ⟨rfl, rfl⟩ := Prod.mk.inj h
    have hmem := mem_of_peek hv
    refine ⟨?_, ?_⟩
    · rintro _ ⟨⟩
      exact hmem
    · intro e he
      rcases mem_put he with he | rfl
      · exact he
      · exact hmem

end LruCache
