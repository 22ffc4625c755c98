import GitNfs.Text
import Mathlib.Tactic.SplitIfs

/-! # The block cache

A pack file in the bucket is read in blocks of one size, which are kept in memory and on disk.
-/

namespace GitNfs

structure BlockCache where
  blockSize : Nat
  /-- The pack files that are on disk as a whole. -/
  fullPacks : Str → Option Bytes
  /-- The blocks in memory and on disk. -/
  blocks : Str → Nat → Option Bytes

namespace BlockCache

/-- The last component of the name of an object. -/
def extractFilename (packName : Str) : Str := ((packName.splitOn '/').getLast?).getD packName

/-- `fetchBlock` is a read of a range of the object, which may fail. -/
def getOrFetchBlock (c : BlockCache) (fetchBlock : Nat → Nat → Option Bytes) (packName : Str)
    (b : Nat) : Option Bytes :=
  match c.blocks (extractFilename packName) b with
  | some data => some data
  | none => fetchBlock (b * c.blockSize) c.blockSize

/-- The part of a block that belongs to a range. -/
def overlap (offset len blockStart : Nat) (block : Bytes) : Bytes :=
  let overlapStart := max offset blockStart - blockStart
  let overlapEnd := min (offset + len) (blockStart + block.length) - blockStart
  if overlapStart < block.length then (block.take (min overlapEnd block.length)).drop overlapStart else []

/-- The blocks from `b` on, `n` of them. A short block is the last of its file. -/
def readBlocks (c : BlockCache) (fetchBlock : Nat → Nat → Option Bytes) (packName : Str)
    (offset len : Nat) : Nat → Nat → Bytes → Option Bytes
  | 0, _, result => some result
  | n + 1, b, result =>
    match c.getOrFetchBlock fetchBlock packName b with
    | none => none
    | some block =>
      let result := result ++ overlap offset len (b * c.blockSize) block
      if block.length < c.blockSize then some result
      else readBlocks c fetchBlock packName offset len n (b + 1) result

def readRange (c : BlockCache) (fetchBlock : Nat → Nat → Option Bytes) (packName : Str)
    (offset len : Nat) : Option Bytes :=
  if len = 0 then some []
  else
    match c.fullPacks (extractFilename packName) with
    | some file =>
      if file.length ≤ offset then some []
      else some ((file.drop offset).take (min len (file.length - offset)))
    | none =>
      let startBlock := offset / c.blockSize
      let endBlock := (offset + len - 1) / c.blockSize
      readBlocks c fetchBlock packName offset len (endBlock + 1 - startBlock) startBlock []

/-- What is kept of a file, and what is fetched of it, is what the file has there. -/
structure Exact (c : BlockCache) (fetchBlock : Nat → Nat → Option Bytes) (packName : Str) (file : Bytes) :
    Prop where
  size : 0 < c.blockSize
  full : ∀ data, c.fullPacks (extractFilename packName) = some data → data = file
  block : ∀ b data, c.blocks (extractFilename packName) b = some data →
    data = (file.drop (b * c.blockSize)).take c.blockSize
  fetch : ∀ offset len, fetchBlock offset len = some ((file.drop offset).take len)

variable {c : BlockCache} {fetchBlock : Nat → Nat → Option Bytes} {packName : Str} {file : Bytes}

theorem Exact.getOrFetchBlock (h : c.Exact fetchBlock packName file) (b : Nat) :
    c.getOrFetchBlock fetchBlock packName b = some ((file.drop (b * c.blockSize)).take c.blockSize) := by
  unfold BlockCache.getOrFetchBlock
  cases hb : c.blocks (extractFilename packName) b with
  | none => exact h.fetch _ _
  | some data => rw [h.block b data hb]

theorem overlap_eq (offset len blockStart : Nat) (block : Bytes) :
    overlap offset len blockStart block =
      (block.take (offset + len - blockStart)).drop (offset - blockStart) := by
  have hstart : max offset blockStart - blockStart = offset - blockStart := by omega
  have hend : min (min (offset + len) (blockStart + block.length) - blockStart) block.length =
      min (offset + len - blockStart) block.length := by omega
  have htake : block.take (min (offset + len - blockStart) block.length) =
      block.take (offset + len - blockStart) := by
    rw [← List.take_take, List.take_length]
  unfold overlap
  simp only [hstart, hend, htake]
  split_ifs with hin
  · rfl
  · rw [List.drop_of_length_le (by rw [List.length_take]; omega)]

/-- Up to the end of a block, a range is what it was up to the start of it and what it has of the block. -/
theorem take_overlap (file : Bytes) (size offset len blockStart : Nat) :
    (file.drop offset).take (min len (blockStart - offset)) ++
        overlap offset len blockStart ((file.drop blockStart).take size) =
      (file.drop offset).take (min len (blockStart + size - offset)) := by
  rw [overlap_eq]
  refine List.ext_getElem? fun i => ?_
  rw [List.getElem?_append]
  simp only [List.getElem?_take, List.getElem?_drop, List.length_take, List.length_drop]
  have hnone (j : Nat) (hj : file.length ≤ j) : file[j]? = none := List.getElem?_eq_none hj
  by_cases hfile : offset + i < file.length
  · split_ifs
    all_goals first | rfl | omega | exact congrArg (file[·]?) (by omega)
  · rw [hnone (offset + i) (by omega)]
    split_ifs
    all_goals first | rfl | exact hnone _ (by omega)

theorem Exact.readBlocks (h : c.Exact fetchBlock packName file) (offset len n b : Nat) (result : Bytes)
    (hresult : result = (file.drop offset).take (min len (b * c.blockSize - offset)))
    (hlast : n = 0 → min len (b * c.blockSize - offset) = len)
    (hin : offset < (b + 1) * c.blockSize) (hend : offset + len ≤ (b + n) * c.blockSize) :
    c.readBlocks fetchBlock packName offset len n b result = some ((file.drop offset).take len) := by
  induction n generalizing b result with
  | zero =>
    rw [BlockCache.readBlocks, hresult, hlast rfl]
  | succ n ih =>
    rw [BlockCache.readBlocks, h.getOrFetchBlock b]
    have hnext : b * c.blockSize + c.blockSize = (b + 1) * c.blockSize := by rw [Nat.succ_mul]
    have hjoin := take_overlap file c.blockSize offset len (b * c.blockSize)
    rw [← hresult, hnext] at hjoin
    simp only [hjoin]
    split_ifs with hshort
    · -- a short block is the end of the file
      rw [List.length_take, List.length_drop] at hshort
      have hcut : min (min len ((b + 1) * c.blockSize - offset)) (file.drop offset).length =
          min len (file.drop offset).length := by
        rw [List.length_drop]
        omega
      rw [List.take_eq_take_iff.mpr hcut]
    · refine ih (b + 1) _ rfl ?_ ?_ ?_
      · rintro rfl
        rw [Nat.add_zero] at hend
        omega
      · have hmore : (b + 1) * c.blockSize ≤ (b + 1 + 1) * c.blockSize :=
          Nat.mul_le_mul_right c.blockSize (Nat.le_succ (b + 1))
        omega
      · rwa [Nat.add_right_comm, Nat.add_assoc]

/-- A range that is read through the cache is the slice of the file. -/
theorem Exact.readRange (h : c.Exact fetchBlock packName file) (offset len : Nat) :
    c.readRange fetchBlock packName offset len = some ((file.drop offset).take len) := by
  unfold BlockCache.readRange
  split_ifs with hlen
  · rw [hlen, List.take_zero]
  · cases hfull : c.fullPacks (extractFilename packName) with
    | some data =>
      rw [h.full data hfull]
      simp only
      split_ifs with hbehind
      · rw [List.drop_of_length_le hbehind, List.take_nil]
      · have hcut : min (min len (file.length - offset)) (file.drop offset).length =
            min len (file.drop offset).length := by
          rw [List.length_drop]
          omega
        rw [List.take_eq_take_iff.mpr hcut]
    | none =>
      have hsize := h.size
      have hstart : offset / c.blockSize * c.blockSize ≤ offset := Nat.div_mul_le_self _ _
      have hstart' : offset < (offset / c.blockSize + 1) * c.blockSize := by
        rw [Nat.add_mul, Nat.one_mul, Nat.mul_comm]
        exact Nat.lt_mul_div_succ offset hsize
      have hend : offset + len - 1 < ((offset + len - 1) / c.blockSize + 1) * c.blockSize := by
        rw [Nat.add_mul, Nat.one_mul, Nat.mul_comm]
        exact Nat.lt_mul_div_succ _ hsize
      have hle : offset / c.blockSize ≤ (offset + len - 1) / c.blockSize :=
        Nat.div_le_div_right (by omega)
      have hblocks : offset / c.blockSize + ((offset + len - 1) / c.blockSize + 1 - offset / c.blockSize) =
          (offset + len - 1) / c.blockSize + 1 := by omega
      refine h.readBlocks offset len _ _ [] ?_ (by omega) hstart' ?_
      · rw [Nat.sub_eq_zero_of_le hstart, Nat.min_zero, List.take_zero]
      · rw [hblocks]
        omega

end BlockCache

end GitNfs
