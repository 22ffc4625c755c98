import GitNfs.Hash

/-! # zlib

The compressor and the decompressor of `flate2` are parameters of the model. These are streams that a
compressor may make, of blocks that are not compressed, and what a decompressor makes of them.
-/

namespace GitNfs

def adler32 (b : Bytes) : UInt32 :=
  let (x, y) := b.foldl (fun (x, y) c => ((x + c.toNat) % 65521, (y + (x + c.toNat) % 65521) % 65521)) (1, 0)
  UInt32.ofNat (y * 2 ^ 16 + x)

/-- A payload of less than 2 ^ 16 bytes in a single block. -/
def zlibStored (b : Bytes) : Bytes :=
  let len := b.length
  [0x78, 0x01, 0x01, UInt8.ofNat len, UInt8.ofNat (len / 256), UInt8.ofNat (255 - len % 256),
    UInt8.ofNat (255 - len / 256 % 256)] ++ b ++ u32ToBeBytes (adler32 b)

/-- A block of less than 2 ^ 16 bytes, of a stream that may have several. -/
def storedBlock (final : UInt8) (b : Bytes) : Bytes :=
  [final, UInt8.ofNat b.length, UInt8.ofNat (b.length / 256), UInt8.ofNat (255 - b.length % 256),
    UInt8.ofNat (255 - b.length / 256 % 256)] ++ b

/-- What the blocks up to the final one hold, and what is behind them. -/
def inflateBlocks : Nat → Bytes → Option (Bytes × Bytes)
  | fuel + 1, final :: a :: b :: _ :: _ :: rest =>
    let len := a.toNat + 256 * b.toNat
    if rest.length < len then none
    else if final = 1 then some (rest.take len, rest.drop len)
    else if final = 0 then
      match inflateBlocks fuel (rest.drop len) with
      | none => none
      | some (data, behind) => some (rest.take len ++ data, behind)
    else none
  | _, _ => none

/-- What a decompressor makes of a stream of such blocks, and how many bytes it takes. -/
def inflateStored : Bytes → Option (Bytes × Nat)
  | 0x78 :: 0x01 :: rest =>
    match inflateBlocks rest.length rest with
    | none => none
    | some (data, behind) =>
      if behind.take 4 = u32ToBeBytes (adler32 data) then some (data, 6 + (rest.length - behind.length))
      else none
  | _ => none

theorem inflateBlocks_front {fuel : Nat} {s data behind : Bytes} (h : inflateBlocks fuel s = some (data, behind)) :
    ∃ front, s = front ++ behind ∧
      ∀ t fuel', front.length ≤ fuel' → inflateBlocks fuel' (front ++ t) = some (data, t) := by
  induction fuel generalizing s data with
  | zero => exact absurd h (by simp [inflateBlocks])
  | succ fuel ih =>
    match s, h with
    | final :: a :: b :: c :: d :: rest, h =>
      rw [inflateBlocks] at h
      generalize hlen : a.toNat + 256 * b.toNat = len at h
      have htake (hin : ¬rest.length < len) : (rest.take len).length = len := by
        rw [List.length_take]
        omega
      split_ifs at h with hshort hfinal hmore
      · obtain ⟨rfl, rfl⟩ := Prod.mk.inj (Option.some.inj h)
        refine ⟨final :: a :: b :: c :: d :: rest.take len, by simp, fun t fuel' hfuel' => ?_⟩
        obtain ⟨n, rfl⟩ : ∃ n, fuel' = n + 1 := ⟨fuel' - 1, by simp only [List.length_cons] at hfuel'; omega⟩
        simp only [List.cons_append, inflateBlocks, hlen]
        rw [if_neg (by rw [List.length_append, htake hshort]; omega), if_pos hfinal,
          List.take_left' (htake hshort), List.drop_left' (htake hshort)]
      · split at h
        · exact absurd h (by simp)
        · rename_i data' behind' hrest
          obtain ⟨rfl, rfl⟩ := Prod.mk.inj (Option.some.inj h)
          obtain ⟨front, hfront, hall⟩ := ih hrest
          refine ⟨final :: a :: b :: c :: d :: (rest.take len ++ front), ?_, fun t fuel' hfuel' => ?_⟩
          · simp only [List.cons_append, List.append_assoc, ← hfront, List.take_append_drop]
          · simp only [List.length_cons, List.length_append] at hfuel'
            obtain ⟨n, rfl⟩ : ∃ n, fuel' = n + 1 := ⟨fuel' - 1, by omega⟩
            simp only [List.cons_append, List.append_assoc, inflateBlocks, hlen]
            rw [if_neg (by rw [List.length_append, htake hshort]; omega), if_neg hfinal, if_pos hmore,
              List.take_left' (htake hshort), List.drop_left' (htake hshort), hall t n (by omega)]

theorem inflateStored_front {s data : Bytes} {n : Nat} (h : inflateStored s = some (data, n)) :
    ∃ front behind, s = front ++ behind ∧ n = front.length ∧
      ∀ t, inflateStored (front ++ t) = some (data, n) := by
  unfold inflateStored at h
  split at h
  · rename_i rest
    split at h
    · exact absurd h (by simp)
    · rename_i data' behind hblocks
      split_ifs at h with hsum
      obtain ⟨rfl, rfl⟩ := Prod.mk.inj (Option.some.inj h)
      obtain ⟨front, rfl, hall⟩ := inflateBlocks_front hblocks
      have hlen : (u32ToBeBytes (adler32 data')).length = 4 := u32ToBeBytes_length _
      have hbehind : behind = u32ToBeBytes (adler32 data') ++ behind.drop 4 := by
        rw [← hsum, List.take_append_drop]
      refine ⟨0x78 :: 0x01 :: (front ++ u32ToBeBytes (adler32 data')), behind.drop 4, ?_, ?_, fun t => ?_⟩
      · simp only [List.cons_append, List.append_assoc, ← hbehind]
      · simp only [List.length_cons, List.length_append, hlen]
        omega
      · simp only [List.cons_append, List.append_assoc, inflateStored]
        rw [hall _ _ (by rw [List.length_append]; omega)]
        simp only
        rw [List.take_left' hlen, if_pos rfl]
        simp only [List.length_append, hlen]
        congr 2
        omega
  · exact absurd h (by simp)

theorem inflateBlocks_stored {fuel : Nat} (b rest : Bytes) (h : b.length < 2 ^ 16) :
    inflateBlocks (fuel + 1) (storedBlock 1 b ++ rest) = some (b, rest) := by
  have hlen : (UInt8.ofNat b.length).toNat + 256 * (UInt8.ofNat (b.length / 256)).toNat = b.length := by
    rw [UInt8.toNat_ofNat', UInt8.toNat_ofNat']
    omega
  simp only [storedBlock, List.cons_append, List.nil_append, inflateBlocks, hlen]
  rw [if_neg (by rw [List.length_append]; omega), if_pos trivial, List.take_left, List.drop_left]

theorem inflateStored_zlibStored (b rest : Bytes) (h : b.length < 2 ^ 16) :
    inflateStored (zlibStored b ++ rest) = some (b, (zlibStored b).length) := by
  have hzlib : zlibStored b = 0x78 :: 0x01 :: (storedBlock 1 b ++ u32ToBeBytes (adler32 b)) := rfl
  have hpos : 0 < (storedBlock 1 b ++ (u32ToBeBytes (adler32 b) ++ rest)).length := by
    simp [storedBlock]
  obtain ⟨fuel, hfuel⟩ := Nat.exists_eq_add_of_lt hpos
  rw [hzlib]
  simp only [List.cons_append, List.append_assoc, inflateStored]
  rw [hfuel, Nat.zero_add, inflateBlocks_stored _ _ h]
  simp only
  rw [List.take_left' (u32ToBeBytes_length _), if_pos rfl]
  simp only [List.length_cons, List.length_append, u32ToBeBytes_length] at hfuel ⊢
  congr 2
  omega

/-- A payload in two blocks. -/
def zlibTwice (b : Bytes) : Bytes :=
  [0x78, 0x01] ++ storedBlock 0 (b.take 65535) ++ storedBlock 1 (b.drop 65535) ++ u32ToBeBytes (adler32 b)

theorem zlibTwice_length (b : Bytes) : (zlibTwice b).length = b.length + 16 := by
  simp only [zlibTwice, storedBlock, List.length_append, List.length_cons, List.length_nil, List.length_take,
    List.length_drop, u32ToBeBytes_length]
  omega

theorem inflateBlocks_more {fuel : Nat} (b rest : Bytes) (h : b.length < 2 ^ 16) :
    inflateBlocks (fuel + 1) (storedBlock 0 b ++ rest) =
      (inflateBlocks fuel rest).map fun r => (b ++ r.1, r.2) := by
  have hlen : (UInt8.ofNat b.length).toNat + 256 * (UInt8.ofNat (b.length / 256)).toNat = b.length := by
    rw [UInt8.toNat_ofNat', UInt8.toNat_ofNat']
    omega
  simp only [storedBlock, List.cons_append, List.nil_append, inflateBlocks, hlen]
  rw [if_neg (by rw [List.length_append]; omega), if_neg (by decide), if_pos trivial, List.take_left,
    List.drop_left]
  cases inflateBlocks fuel rest <;> rfl

theorem inflateStored_zlibTwice (b rest : Bytes) (hlen : b.length < 2 ^ 17 - 1) :
    inflateStored (zlibTwice b ++ rest) = some (b, (zlibTwice b).length) := by
  have htake : (b.take 65535).length < 2 ^ 16 := by
    rw [List.length_take]
    omega
  have hdrop : (b.drop 65535).length < 2 ^ 16 := by
    rw [List.length_drop]
    omega
  have hzlib : zlibTwice b = 0x78 :: 0x01 ::
      (storedBlock 0 (b.take 65535) ++ (storedBlock 1 (b.drop 65535) ++ u32ToBeBytes (adler32 b))) := by
    simp only [zlibTwice, List.append_assoc]
    rfl
  obtain ⟨fuel, hfuel⟩ : ∃ fuel, (storedBlock 0 (b.take 65535) ++ (storedBlock 1 (b.drop 65535) ++
      (u32ToBeBytes (adler32 b) ++ rest))).length = fuel + 1 + 1 := by
    refine ⟨(storedBlock 0 (b.take 65535) ++ (storedBlock 1 (b.drop 65535) ++
      (u32ToBeBytes (adler32 b) ++ rest))).length - 2, ?_⟩
    simp only [storedBlock, List.length_append, List.length_cons]
    omega
  rw [hzlib]
  simp only [List.cons_append, List.append_assoc, inflateStored]
  rw [hfuel, inflateBlocks_more _ _ htake, inflateBlocks_stored _ _ hdrop]
  simp only [Option.map_some, List.take_append_drop]
  rw [List.take_left' (u32ToBeBytes_length _), if_pos rfl]
  simp only [List.length_cons, List.length_append, u32ToBeBytes_length] at hfuel ⊢
  congr 2
  omega

end GitNfs
