import GitNfs.Git.Pack
import GitNfs.Lib.Groups

/-! # Numbers of variable length

Deltas and the headers of records have their numbers in groups of seven bits, lowest first, and the distance
of a base has them highest first. The reader of a whole pack and the reader of one object have the same loops.
-/

namespace GitNfs

open Groups

/-- The groups of the bytes up to the first that has no continuation bit. -/
def varintGroups : Bytes → List Nat
  | [] => []
  | c :: rest => c.toNat % 128 :: if c.toNat < 128 then [] else varintGroups rest

/-- The groups behind a first byte. -/
def tailGroups (c : UInt8) (rest : Bytes) : List Nat := if c.toNat < 128 then [] else varintGroups rest

theorem varintGroups_lt (s : Bytes) : ∀ g ∈ varintGroups s, g < 2 ^ 7 := by
  induction s with
  | nil => simp [varintGroups]
  | cons c rest ih =>
    intro g hg
    rw [varintGroups] at hg
    rcases List.mem_cons.mp hg with rfl | hg
    · exact Nat.mod_lt _ (by decide)
    · split_ifs at hg
      · simp at hg
      · exact ih g hg

theorem tailGroups_lt (c : UInt8) (rest : Bytes) : ∀ g ∈ tailGroups c rest, g < 2 ^ 7 := by
  intro g hg
  unfold tailGroups at hg
  split_ifs at hg
  · simp at hg
  · exact varintGroups_lt rest g hg

/-! ## Lowest first -/

/-- What a loop puts together: the bits of its first byte, where the next go, and the groups of the others. -/
structure VarintLoop where
  first : Nat
  shift : Nat
  groups : List Nat

namespace VarintLoop

/-- The number that the bytes denote. -/
def value (l : VarintLoop) : Nat := l.first + littleEndian 7 l.groups <<< l.shift

/-- No shift reaches the width of a word, and none drops a bit. -/
def Faultless (l : VarintLoop) : Prop := PlainFits 64 7 l.shift l.groups

/-- Ten bytes at most, and a number that fits into a word. -/
def Fits (l : VarintLoop) : Prop := l.groups.length ≤ 9 ∧ l.value < 2 ^ 64

/-- The loop is done right: what it returns is the number, and it does no step that loses something. -/
def Exact (l : VarintLoop) (returns : Nat → Prop) : Prop :=
  (∀ n, returns n → n = l.value ∧ n < 2 ^ 64) ∧ l.Faultless

end VarintLoop

/-- The loop of `decode_varint`. -/
def varintLoop : Bytes → VarintLoop
  | [] => ⟨0, 7, []⟩
  | c :: rest => ⟨c.toNat % 128, 7, tailGroups c rest⟩

/-- The loop over the size in the header of a record, which starts once the type is known. -/
def headerLoop : Bytes → VarintLoop
  | [] => ⟨0, 4, []⟩
  | c :: rest =>
    match ObjectType.fromU8 (c.toNat / 16 % 8) with
    | .error _ => ⟨0, 4, []⟩
    | .ok _ => ⟨c.toNat % 16, 4, tailGroups c rest⟩

/-- A group of a number below 2^64 is put in its place. From bit 64 on there is no such group but zero. -/
theorem usize_group {val g more shift : Nat} (hlt : val + (g + 2 ^ 7 * more) <<< shift < 2 ^ 64) :
    usize (g <<< (shift % 64)) = g <<< shift := by
  have hgroup : g <<< shift ≤ (g + 2 ^ 7 * more) <<< shift := by
    rw [Nat.shiftLeft_eq, Nat.shiftLeft_eq]
    exact Nat.mul_le_mul_right _ (Nat.le_add_right _ _)
  by_cases hshift : shift < 64
  · rw [Nat.mod_eq_of_lt hshift, usize, Nat.mod_eq_of_lt (by omega)]
  · have hpow : 2 ^ 64 ≤ 2 ^ shift := Nat.pow_le_pow_right (by decide) (by omega)
    have hzero : g = 0 := by
      by_contra hne
      have : 1 * 2 ^ shift ≤ g * 2 ^ shift := Nat.mul_le_mul_right _ (by omega)
      rw [Nat.shiftLeft_eq] at hgroup
      omega
    subst hzero
    simp [usize]

theorem varintTail_value {eof : PackError} {s rest : Bytes} {val shift n : Nat} (hval : val < 2 ^ shift)
    (hlt : val + littleEndian 7 (varintGroups s) <<< shift < 2 ^ 64)
    (h : varintTail eof val shift s = .ok (n, rest)) :
    n = val + littleEndian 7 (varintGroups s) <<< shift := by
  induction s generalizing val shift with
  | nil => simp [varintTail] at h
  | cons c s ih =>
    rw [varintGroups, littleEndian] at hlt ⊢
    rw [varintTail] at h
    simp only [usize_group hlt, or_shift hval] at h
    split_ifs at h hlt ⊢ with hlast
    · obtain ⟨rfl, -⟩ := Prod.mk.inj (Except.ok.inj h)
      simp [littleEndian]
    · have hsplit : (c.toNat % 128 + 2 ^ 7 * littleEndian 7 (varintGroups s)) <<< shift =
          (c.toNat % 128) <<< shift + littleEndian 7 (varintGroups s) <<< (shift + 7) := by
        simp only [Nat.shiftLeft_eq, Nat.pow_add]
        ring
      have hnext : val + (c.toNat % 128) <<< shift < 2 ^ (shift + 7) := by
        have hgroup : c.toNat % 128 < 2 ^ 7 := Nat.mod_lt _ (by decide)
        rw [Nat.shiftLeft_eq, Nat.pow_add]
        nlinarith
      rw [hsplit, ← Nat.add_assoc] at hlt ⊢
      exact ih hnext hlt h

namespace VarintLoop

variable {l : VarintLoop}

/-- Behind four or seven bits, nine groups have their places in a word. -/
theorem faultless_iff (hfirst : l.first < 2 ^ l.shift) (hshift : l.shift = 4 ∨ l.shift = 7)
    (hgroups : ∀ g ∈ l.groups, g < 2 ^ 7) : l.Faultless ↔ l.Fits := by
  unfold Faultless Fits
  rw [plainFits_iff hgroups]
  have hplaces : (∀ i, i < l.groups.length → l.shift + 7 * i < 64) ↔ l.groups.length ≤ 9 := by
    constructor
    · intro h
      by_contra hlong
      have := h 9 (by omega)
      omega
    · intro h i hi
      omega
  rw [hplaces]
  refine and_congr_right fun _ => ?_
  -- the first byte stands below the places of the groups
  have hle : l.shift ≤ 64 := by omega
  unfold value
  rw [shift_lt_iff hle, Nat.shiftLeft_eq]
  have hword : 2 ^ 64 = 2 ^ l.shift * 2 ^ (64 - l.shift) := by
    rw [← Nat.pow_add, Nat.add_sub_cancel' hle]
  rw [hword, Nat.mul_comm (littleEndian 7 l.groups)]
  constructor
  · intro hlt
    calc l.first + 2 ^ l.shift * littleEndian 7 l.groups
        < 2 ^ l.shift * (littleEndian 7 l.groups + 1) := by rw [Nat.mul_succ]; omega
      _ ≤ 2 ^ l.shift * 2 ^ (64 - l.shift) := Nat.mul_le_mul_left _ hlt
  · intro hlt
    exact Nat.lt_of_mul_lt_mul_left (Nat.lt_of_le_of_lt (Nat.le_add_left _ _) hlt)

theorem exact_iff {returns : Nat → Prop} (hfirst : l.first < 2 ^ l.shift)
    (hshift : l.shift = 4 ∨ l.shift = 7) (hgroups : ∀ g ∈ l.groups, g < 2 ^ 7)
    (hvalue : l.value < 2 ^ 64 → ∀ n, returns n → n = l.value) : l.Exact returns ↔ l.Fits := by
  have hiff := faultless_iff hfirst hshift hgroups
  constructor
  · exact fun h => hiff.mp h.2
  · intro h
    refine ⟨fun n hn => ?_, hiff.mpr h⟩
    have heq := hvalue h.2 n hn
    exact ⟨heq, heq ▸ h.2⟩

end VarintLoop

theorem tail_value {eof : PackError} {c : UInt8} {rest rest' : Bytes} {val shift n : Nat}
    (hval : val < 2 ^ shift) (hlt : val + littleEndian 7 (tailGroups c rest) <<< shift < 2 ^ 64)
    (hlast : ¬ c.toNat < 128) (h : varintTail eof val shift rest = .ok (n, rest')) :
    n = val + littleEndian 7 (tailGroups c rest) <<< shift := by
  unfold tailGroups at hlt ⊢
  rw [if_neg hlast] at hlt ⊢
  exact varintTail_value hval hlt h

theorem decodeVarint_value {s rest : Bytes} {n : Nat} (hlt : (varintLoop s).value < 2 ^ 64)
    (h : decodeVarint s = .ok (n, rest)) : n = (varintLoop s).value := by
  cases s with
  | nil => simp [decodeVarint] at h
  | cons c s =>
    rw [decodeVarint] at h
    split_ifs at h with hlast
    · obtain ⟨rfl, -⟩ := Prod.mk.inj (Except.ok.inj h)
      simp [VarintLoop.value, varintLoop, tailGroups, hlast, littleEndian]
    · exact tail_value (Nat.mod_lt _ (by decide)) hlt hlast h

theorem readObjectHeader_size {s rest : Bytes} {t : ObjectType} {size : Nat}
    (hlt : (headerLoop s).value < 2 ^ 64) (h : readObjectHeader s = .ok ((t, size), rest)) :
    size = (headerLoop s).value := by
  cases s with
  | nil => simp [readObjectHeader] at h
  | cons c s =>
    rw [readObjectHeader] at h
    unfold VarintLoop.value at hlt ⊢
    rw [headerLoop] at hlt ⊢
    cases htype : ObjectType.fromU8 (c.toNat / 16 % 8) with
    | error e => simp [htype] at h
    | ok t' =>
      simp only [htype] at h hlt ⊢
      split_ifs at h with hlast
      · obtain ⟨hsize, -⟩ := Prod.mk.inj (Except.ok.inj h)
        obtain ⟨-, rfl⟩ := Prod.mk.inj hsize
        simp [tailGroups, hlast, littleEndian]
      · split at h
        · simp at h
        · rename_i size' rest' htail
          obtain ⟨hsize, -⟩ := Prod.mk.inj (Except.ok.inj h)
          obtain ⟨-, rfl⟩ := Prod.mk.inj hsize
          exact tail_value (Nat.mod_lt _ (by decide)) hlt hlast htail

/-! ## Highest first -/

/-- The distance that the bytes denote. -/
def offsetNumber : Bytes → Nat
  | [] => 0
  | c :: rest => offsetValue 7 (c.toNat % 128) (tailGroups c rest)

/-- No sum and no shift of the loop over a distance loses a bit. -/
def OffsetFaultless : Bytes → Prop
  | [] => True
  | c :: rest => OffsetFits 64 7 (c.toNat % 128) (tailGroups c rest)

theorem offsetTail_value {s rest : Bytes} {val n : Nat} (hfits : OffsetFits 64 7 val (varintGroups s))
    (h : offsetTail val s = .ok (n, rest)) : n = offsetValue 7 val (varintGroups s) := by
  induction s generalizing val with
  | nil => simp [offsetTail] at h
  | cons c s ih =>
    rw [varintGroups, OffsetFits] at hfits
    obtain ⟨-, ⟨-, hshift⟩, hfits⟩ := hfits
    have hbits : usize ((val + 1) <<< 7) ||| c.toNat % 128 = (val + 1) * 2 ^ 7 + c.toNat % 128 := by
      have hgroup : c.toNat % 128 < 2 ^ 7 := Nat.mod_lt _ (by decide)
      rw [usize, Nat.mod_eq_of_lt hshift, Nat.shiftLeft_eq, Nat.mul_comm,
        ← Nat.two_pow_add_eq_or_of_lt hgroup]
    rw [offsetTail] at h
    simp only [hbits] at h
    rw [varintGroups, offsetValue]
    split_ifs at h hfits ⊢ with hlast
    · obtain ⟨rfl, -⟩ := Prod.mk.inj (Except.ok.inj h)
      rfl
    · exact ih hfits h

theorem decodeOffset_value {s rest : Bytes} {n : Nat} (hfits : OffsetFaultless s)
    (h : decodeOffset s = .ok (n, rest)) : n = offsetNumber s := by
  cases s with
  | nil => simp [decodeOffset] at h
  | cons c s =>
    rw [decodeOffset] at h
    rw [OffsetFaultless] at hfits
    rw [offsetNumber]
    unfold tailGroups at hfits ⊢
    split_ifs at h hfits ⊢ with hlast
    · obtain ⟨rfl, -⟩ := Prod.mk.inj (Except.ok.inj h)
      rfl
    · exact offsetTail_value hfits h

theorem offsetFaultless_iff (s : Bytes) : OffsetFaultless s ↔ offsetNumber s < 2 ^ 64 := by
  cases s with
  | nil => simp [OffsetFaultless, offsetNumber]
  | cons c s =>
    have hfirst : c.toNat % 128 < 2 ^ 64 := by omega
    exact offsetFits_iff (by decide) (tailGroups_lt c s) hfirst

/-! ## Exactly or not at all -/

/-- The loops are exact on the bytes that denote a number below 2^64 in at most ten bytes, and on no others. -/
theorem varints_exact_iff (s : Bytes) :
    ((varintLoop s).Exact (fun n => ∃ rest, decodeVarint s = .ok (n, rest)) ↔ (varintLoop s).Fits) ∧
    ((headerLoop s).Exact (fun n => ∃ t rest, readObjectHeader s = .ok ((t, n), rest)) ↔
      (headerLoop s).Fits) ∧
    (((∀ n rest, decodeOffset s = .ok (n, rest) → n = offsetNumber s ∧ n < 2 ^ 64) ∧ OffsetFaultless s) ↔
      offsetNumber s < 2 ^ 64) := by
  refine ⟨?_, ?_, ?_⟩
  · refine VarintLoop.exact_iff ?_ ?_ ?_ fun hlt n ⟨rest, h⟩ => decodeVarint_value hlt h
    · cases s with
      | nil => decide
      | cons c s => exact Nat.mod_lt _ (by decide)
    · cases s <;> exact .inr rfl
    · cases s with
      | nil => simp [varintLoop]
      | cons c s => exact tailGroups_lt c s
  · have hparts : (headerLoop s).first < 2 ^ (headerLoop s).shift ∧ (headerLoop s).shift = 4 ∧
        ∀ g ∈ (headerLoop s).groups, g < 2 ^ 7 := by
      cases s with
      | nil => simp [headerLoop]
      | cons c s =>
        rw [headerLoop]
        cases ObjectType.fromU8 (c.toNat / 16 % 8) with
        | error e => simp
        | ok t => exact ⟨Nat.mod_lt _ (by decide), rfl, tailGroups_lt c s⟩
    exact VarintLoop.exact_iff hparts.1 (.inl hparts.2.1) hparts.2.2
      fun hlt n ⟨t, rest, h⟩ => readObjectHeader_size hlt h
  · constructor
    · exact fun h => (offsetFaultless_iff s).mp h.2
    · intro hlt
      have hfits := (offsetFaultless_iff s).mpr hlt
      refine ⟨fun n rest h => ?_, hfits⟩
      have heq := decodeOffset_value hfits h
      exact ⟨heq, heq ▸ hlt⟩

/-- A number from 2^64 on in each of the three encodings. What comes out is short of it by 2^64. -/
theorem varints_wrap :
    ((varintLoop (List.replicate 9 128 ++ [2])).value = 2 ^ 64 ∧
      decodeVarint (List.replicate 9 128 ++ [2]) = .ok (0, [])) ∧
    ((headerLoop (0xB0 :: List.replicate 8 128 ++ [16])).value = 2 ^ 64 ∧
      readObjectHeader (0xB0 :: List.replicate 8 128 ++ [16]) = .ok ((.blob, 0), [])) ∧
    offsetNumber (0x81 :: List.replicate 8 128 ++ [0]) = 2 ^ 64 + 72624976668147840 ∧
      decodeOffset (0x81 :: List.replicate 8 128 ++ [0]) = .ok (72624976668147840, []) := by
  decide +kernel

end GitNfs
