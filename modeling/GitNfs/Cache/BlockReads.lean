import GitNfs.Cache.Block
import GitNfs.Git.Pack
import GitNfs.Lib.Lru

/-! # Reads through the block cache

A read of a range with the caches it goes through, the blocks in memory and the files on disk, and with the
arithmetic of a `u64`. Other tasks may do anything to the caches while a block is waited for.
-/

namespace GitNfs.BlockReads

open BlockCache (extractFilename overlap)

/-- Why a read gives no bytes. -/
inductive ReadStop where
  /-- A sum, a difference, a product, a cut or a capacity is out of range. -/
  | panic
  /-- A block could not be fetched. -/
  | error
  deriving DecidableEq, Repr

/-! ## Checked arithmetic -/

def add (a b : Nat) : Except ReadStop Nat := if a + b < 2 ^ 64 then .ok (a + b) else .error .panic

def sub (a b : Nat) : Except ReadStop Nat := if b ≤ a then .ok (a - b) else .error .panic

def mul (a b : Nat) : Except ReadStop Nat := if a * b < 2 ^ 64 then .ok (a * b) else .error .panic

/-- `data[s..e]` -/
def cut (data : Bytes) (s e : Nat) : Except ReadStop Bytes :=
  if s ≤ e ∧ e ≤ data.length then .ok ((data.take e).drop s) else .error .panic

/-- `Vec::with_capacity` -/
def withCapacity (n : Nat) : Except ReadStop Bytes := if n ≤ maxCapacity then .ok [] else .error .panic

/-! ## The caches -/

structure Caches where
  memoryBlocks : LruCache (Str × Nat) Bytes
  blockFiles : Str × Nat → Option Bytes
  fullPacks : Str → Option Bytes

namespace Caches

def putMemory (c : Caches) (key : Str × Nat) (data : Bytes) : Caches :=
  { c with memoryBlocks := c.memoryBlocks.put key data }

/-- A block file is written beside its place and renamed, so it is there as a whole or not at all. -/
def putFile (c : Caches) (key : Str × Nat) (data : Bytes) (written : Bool) : Caches :=
  if written then { c with blockFiles := Function.update c.blockFiles key (some data) } else c

/-- The memory first, then the block file, which may be unreadable. -/
def lookup (c : Caches) (key : Str × Nat) (readable : Bool) : Option (Bytes × Caches) :=
  match c.memoryBlocks.get key with
  | (some data, memory) => some (data, { c with memoryBlocks := memory })
  | (none, _) =>
    match if readable then c.blockFiles key else none with
    | some data => some (data, c.putMemory key data)
    | none => none

end Caches

/-- What happens around a task while it gets one block. -/
structure Meanwhile where
  readable : Bool
  /-- The caches that the task finds each time it is woken, and whether it can read the block file. -/
  woken : List (Caches × Bool)
  /-- What the caches are when the fetch returns, if they changed. -/
  fetched : Option Caches
  written : Bool

section Read

variable (fetchBlock : Nat → Nat → Option Bytes) (blockSize : Nat)

def fetchAndStore (key : Str × Nat) (m : Meanwhile) (c : Caches) : Except ReadStop (Bytes × Caches) := do
  let blockOffset ← mul key.2 blockSize
  match fetchBlock blockOffset blockSize with
  | none => .error .error
  | some data => .ok (data, (((m.fetched.getD c).putFile key data m.written).putMemory key data))

/-- A task that is woken and finds nothing goes round again, and fetches when nobody else does. -/
def coordinate (key : Str × Nat) (m : Meanwhile) : List (Caches × Bool) → Caches → Except ReadStop (Bytes × Caches)
  | [], c => fetchAndStore fetchBlock blockSize key m c
  | (c, readable) :: woken, _ =>
    match c.lookup key readable with
    | some found => .ok found
    | none => coordinate key m woken c

def getOrFetchBlock (packName : Str) (b : Nat) (m : Meanwhile) (c : Caches) : Except ReadStop (Bytes × Caches) :=
  match c.lookup (extractFilename packName, b) m.readable with
  | some found => .ok found
  | none => coordinate fetchBlock blockSize (extractFilename packName, b) m m.woken c

/-- The part of a block that belongs to a range. -/
def overlapOf (offset len blockStart : Nat) (block : Bytes) : Except ReadStop Bytes := do
  let overlapStart ← sub (max offset blockStart) blockStart
  let rangeEnd ← add offset len
  let blockEnd ← add blockStart block.length
  let overlapEnd ← sub (min rangeEnd blockEnd) blockStart
  if overlapStart < block.length then cut block overlapStart (min overlapEnd block.length) else .ok []

/-- The blocks from `b` on, `n` of them. -/
def readBlocks (packName : Str) (meanwhile : Nat → Meanwhile) (offset len : Nat) :
    Nat → Nat → Bytes → Caches → Except ReadStop (Bytes × Caches)
  | 0, _, result, c => .ok (result, c)
  | n + 1, b, result, c =>
    match getOrFetchBlock fetchBlock blockSize packName b (meanwhile b) c with
    | .error e => .error e
    | .ok (block, c) => do
      let blockStart ← mul b blockSize
      let part ← overlapOf offset len blockStart block
      if block.length < blockSize then .ok (result ++ part, c)
      else readBlocks packName meanwhile offset len n (b + 1) (result ++ part) c

/-- The most that Linux transfers with one read. -/
def linuxLimit : Nat := 0x7ffff000

/-- One read of a file transfers no more than `limit` bytes. -/
def readAt (limit : Nat) (file : Bytes) (offset n : Nat) : Bytes := (file.drop offset).take (min n limit)

def readRange (limit : Nat) (packName : Str) (meanwhile : Nat → Meanwhile) (offset len : Nat) (c : Caches) :
    Except ReadStop (Bytes × Caches) :=
  if len = 0 then .ok ([], c)
  else
    match c.fullPacks (extractFilename packName) with
    | some file =>
      if file.length ≤ offset then .ok ([], c)
      else do
        let left ← sub file.length offset
        .ok (readAt limit file offset (min len left), c)
    | none => do
      let rangeEnd ← add offset len
      let last ← sub rangeEnd 1
      let startBlock := offset / blockSize
      let endBlock := last / blockSize
      let result ← withCapacity len
      readBlocks fetchBlock blockSize packName meanwhile offset len (endBlock + 1 - startBlock) startBlock result c

end Read

/-! ## True caches -/

/-- What the remote has of a block. -/
def slice (blockSize : Nat) (remote : Str → Bytes) (key : Str × Nat) : Bytes :=
  ((remote key.1).drop (key.2 * blockSize)).take blockSize

/-- All that is kept is what the remote has. -/
structure Caches.Exact (blockSize : Nat) (remote : Str → Bytes) (c : Caches) : Prop where
  memory : ∀ key data, (key, data) ∈ c.memoryBlocks.entries → data = slice blockSize remote key
  files : ∀ key data, c.blockFiles key = some data → data = slice blockSize remote key
  full : ∀ name data, c.fullPacks name = some data → data = remote name

/-- Whatever happens, the caches stay true. -/
structure Meanwhile.Exact (blockSize : Nat) (remote : Str → Bytes) (m : Meanwhile) : Prop where
  woken : ∀ w ∈ m.woken, w.1.Exact blockSize remote
  fetched : ∀ c, m.fetched = some c → c.Exact blockSize remote

/-- The fetcher returns what the remote has, nothing past the end. -/
def Fetches (fetchBlock : Nat → Nat → Option Bytes) (file : Bytes) : Prop :=
  ∀ offset len, fetchBlock offset len = some ((file.drop offset).take len)

section Exact

variable {blockSize : Nat} {remote : Str → Bytes} {c : Caches} {key : Str × Nat}

theorem Caches.Exact.putMemory (h : c.Exact blockSize remote) {data : Bytes}
    (hdata : data = slice blockSize remote key) : (c.putMemory key data).Exact blockSize remote := by
  refine ⟨?_, h.files, h.full⟩
  intro k d hmem
  rcases LruCache.mem_put hmem with hmem | heq
  · exact h.memory k d hmem
  · obtain ⟨rfl, rfl⟩ := Prod.mk.inj heq
    exact hdata

theorem Caches.Exact.putFile (h : c.Exact blockSize remote) {data : Bytes}
    (hdata : data = slice blockSize remote key) (written : Bool) :
    (c.putFile key data written).Exact blockSize remote := by
  unfold Caches.putFile
  split
  · refine ⟨h.memory, ?_, h.full⟩
    intro k d hfile
    simp only [Function.update_apply] at hfile
    split at hfile
    · rename_i hk
      rw [hk, ← Option.some.inj hfile]
      exact hdata
    · exact h.files k d hfile
  · exact h

theorem Caches.Exact.lookup (h : c.Exact blockSize remote) {readable : Bool} {found : Bytes × Caches}
    (hfound : c.lookup key readable = some found) :
    found.1 = slice blockSize remote key ∧ found.2.Exact blockSize remote := by
  unfold Caches.lookup at hfound
  rcases hget : c.memoryBlocks.get key with ⟨_ | data, memory⟩
  · rw [hget] at hfound
    simp only at hfound
    split at hfound
    · rename_i data hfile
      obtain rfl := Option.some.inj hfound
      have hdata : data = slice blockSize remote key := by
        refine h.files key data ?_
        cases readable with
        | false => cases hfile
        | true => exact hfile
      exact ⟨hdata, h.putMemory hdata⟩
    · cases hfound
  · rw [hget] at hfound
    obtain rfl := Option.some.inj hfound
    obtain ⟨hin, hkept⟩ := LruCache.get_entries hget
    refine ⟨h.memory key data (hin data rfl), ?_, h.files, h.full⟩
    intro k d hmem
    exact h.memory k d (hkept _ hmem)

variable {fetchBlock : Nat → Nat → Option Bytes} {m : Meanwhile}

theorem Caches.Exact.fetchAndStore (h : c.Exact blockSize remote) (hm : m.Exact blockSize remote)
    (hfetch : Fetches fetchBlock (remote key.1)) (hmul : key.2 * blockSize < 2 ^ 64) :
    ∃ c', BlockReads.fetchAndStore fetchBlock blockSize key m c = .ok (slice blockSize remote key, c') ∧
      c'.Exact blockSize remote := by
  have hthen : (m.fetched.getD c).Exact blockSize remote := by
    cases hfetched : m.fetched with
    | none => exact h
    | some c' => exact hm.fetched c' hfetched
  have hfile : ((m.fetched.getD c).putFile key (slice blockSize remote key) m.written).Exact blockSize remote :=
    hthen.putFile rfl m.written
  have hstored : (((m.fetched.getD c).putFile key (slice blockSize remote key) m.written).putMemory key
      (slice blockSize remote key)).Exact blockSize remote := hfile.putMemory rfl
  refine ⟨_, ?_, hstored⟩
  unfold BlockReads.fetchAndStore mul
  rw [if_pos hmul]
  simp only [bind, Except.bind, hfetch _ _, slice]

theorem Caches.Exact.coordinate (h : c.Exact blockSize remote) (hm : m.Exact blockSize remote)
    (hfetch : Fetches fetchBlock (remote key.1)) (hmul : key.2 * blockSize < 2 ^ 64)
    {woken : List (Caches × Bool)} (hwoken : ∀ w ∈ woken, w.1.Exact blockSize remote) :
    ∃ c', BlockReads.coordinate fetchBlock blockSize key m woken c = .ok (slice blockSize remote key, c') ∧
      c'.Exact blockSize remote := by
  induction woken generalizing c with
  | nil => exact h.fetchAndStore hm hfetch hmul
  | cons w woken ih =>
    obtain ⟨hw, hrest⟩ := List.forall_mem_cons.mp hwoken
    obtain ⟨found, readable⟩ := w
    unfold BlockReads.coordinate
    cases hlook : found.lookup key readable with
    | none => exact ih hw hrest
    | some r =>
      obtain ⟨hdata, hc⟩ := hw.lookup hlook
      exact ⟨r.2, by simp only [← hdata], hc⟩

/-- A block that is got is what the remote has of it, wherever it came from. -/
theorem Caches.Exact.getOrFetchBlock {packName : Str} {b : Nat} (h : c.Exact blockSize remote)
    (hm : m.Exact blockSize remote) (hfetch : Fetches fetchBlock (remote (extractFilename packName)))
    (hmul : b * blockSize < 2 ^ 64) :
    ∃ c', BlockReads.getOrFetchBlock fetchBlock blockSize packName b m c =
        .ok (slice blockSize remote (extractFilename packName, b), c') ∧ c'.Exact blockSize remote := by
  unfold BlockReads.getOrFetchBlock
  cases hlook : c.lookup (extractFilename packName, b) m.readable with
  | none => exact h.coordinate hm hfetch hmul hm.woken
  | some r =>
    obtain ⟨hdata, hc⟩ := h.lookup hlook
    exact ⟨r.2, by simp only [← hdata], hc⟩

end Exact

/-! ## Reads -/

/-- Where the range starts before the block ends and ends after the block starts, nothing underflows. -/
theorem overlapOf_eq {offset len blockStart : Nat} {block : Bytes} (hrange : offset + len < 2 ^ 64)
    (hblock : blockStart + block.length < 2 ^ 64) (hend : blockStart < offset + len) :
    overlapOf offset len blockStart block = .ok (overlap offset len blockStart block) := by
  unfold overlapOf overlap sub add
  rw [if_pos (by omega), if_pos hrange, if_pos hblock]
  simp only [bind, Except.bind]
  rw [if_pos (by omega)]
  simp only
  split
  · unfold cut
    rw [if_pos (by omega)]
  · rfl

/-- The cache that keeps nothing. -/
def cold (blockSize : Nat) : BlockCache := ⟨blockSize, fun _ => none, fun _ _ => none⟩

theorem cold_exact {blockSize : Nat} {fetchBlock : Nat → Nat → Option Bytes} {file : Bytes} (packName : Str)
    (hsize : 0 < blockSize) (hfetch : Fetches fetchBlock file) :
    (cold blockSize).Exact fetchBlock packName file where
  size := hsize
  full _ h := by cases h
  block _ _ h := by cases h
  fetch := hfetch

theorem slice_length {blockSize : Nat} {remote : Str → Bytes} {key : Str × Nat} :
    (slice blockSize remote key).length = min blockSize ((remote key.1).length - key.2 * blockSize) := by
  unfold slice
  rw [List.length_take, List.length_drop]

section Blocks

variable {fetchBlock : Nat → Nat → Option Bytes} {blockSize : Nat} {remote : Str → Bytes} {packName : Str}
  {meanwhile : Nat → Meanwhile} {offset len : Nat}

/-- The blocks that are read through true caches are put together as they are without any. -/
theorem Caches.Exact.readBlocks (hsize : 0 < blockSize) (hrange : offset + len < 2 ^ 64)
    (hfile : (remote (extractFilename packName)).length < 2 ^ 64)
    (hfetch : Fetches fetchBlock (remote (extractFilename packName)))
    (hmeanwhile : ∀ b, (meanwhile b).Exact blockSize remote) {n b : Nat} {result out : Bytes} {c : Caches}
    (h : c.Exact blockSize remote) (hin : n = 0 ∨ (b + n - 1) * blockSize < offset + len)
    (hout : (cold blockSize).readBlocks fetchBlock packName offset len n b result = some out) :
    ∃ c', BlockReads.readBlocks fetchBlock blockSize packName meanwhile offset len n b result c = .ok (out, c') ∧
      c'.Exact blockSize remote := by
  induction n generalizing b result c with
  | zero => exact ⟨c, by rw [BlockReads.readBlocks, Option.some.inj hout], h⟩
  | succ n ih =>
    have hstart : b * blockSize < offset + len := by
      have hle : b * blockSize ≤ (b + (n + 1) - 1) * blockSize := Nat.mul_le_mul_right _ (by omega)
      omega
    have hmul : b * blockSize < 2 ^ 64 := by omega
    obtain ⟨c', hget, hc'⟩ := h.getOrFetchBlock (hmeanwhile b) hfetch hmul
    have hlength : (slice blockSize remote (extractFilename packName, b)).length =
        min blockSize ((remote (extractFilename packName)).length - b * blockSize) := slice_length
    have hblock : (cold blockSize).getOrFetchBlock fetchBlock packName b =
        some (slice blockSize remote (extractFilename packName, b)) :=
      (cold_exact packName hsize hfetch).getOrFetchBlock b
    rw [BlockCache.readBlocks, hblock] at hout
    simp only [show (cold blockSize).blockSize = blockSize from rfl] at hout
    rw [BlockReads.readBlocks, hget]
    unfold mul
    simp only [if_pos hmul, bind, Except.bind]
    rw [overlapOf_eq hrange (by omega) hstart]
    simp only
    split
    · rename_i hshort
      rw [if_pos hshort, Option.some.injEq] at hout
      exact ⟨c', by rw [hout], hc'⟩
    · rename_i hlong
      rw [if_neg hlong] at hout
      refine ih hc' ?_ hout
      rcases Nat.eq_zero_or_pos n with rfl | hn
      · exact .inl rfl
      · rw [show b + 1 + n - 1 = b + (n + 1) - 1 by omega]
        exact .inr (hin.resolve_left (Nat.succ_ne_zero n))

end Blocks

/-- A range is what it is without any caches where its length can be a capacity, and what one read transfers
where the whole file is on disk. -/
def Fits (limit : Nat) (remote : Str → Bytes) (packName : Str) (offset len : Nat) (c : Caches) : Prop :=
  if (c.fullPacks (extractFilename packName)).isSome then
    min len ((remote (extractFilename packName)).length - offset) ≤ limit
  else len ≤ maxCapacity

/-- A range that is read through true caches is the slice of the remote file, and leaves them true, if and only
if it fits: a file on disk is read at once, and elsewhere the length that is asked for is allocated. -/
theorem read_range_is_slice {fetchBlock : Nat → Nat → Option Bytes} {limit blockSize : Nat}
    {remote : Str → Bytes} {packName : Str} {meanwhile : Nat → Meanwhile} {offset len : Nat} {c : Caches}
    (hsize : 0 < blockSize) (h : c.Exact blockSize remote) (hrange : offset + len < 2 ^ 64)
    (hfile : (remote (extractFilename packName)).length < 2 ^ 64)
    (hfetch : Fetches fetchBlock (remote (extractFilename packName)))
    (hmeanwhile : ∀ b, (meanwhile b).Exact blockSize remote) :
    (∃ c', readRange fetchBlock blockSize limit packName meanwhile offset len c =
          .ok (((remote (extractFilename packName)).drop offset).take len, c') ∧ c'.Exact blockSize remote) ↔
      Fits limit remote packName offset len c := by
  unfold readRange Fits
  by_cases hlen : len = 0
  · subst hlen
    simp [h]
  rw [if_neg hlen]
  cases hfull : c.fullPacks (extractFilename packName) with
  | some data =>
    obtain rfl := h.full _ data hfull
    simp only [Option.isSome_some, if_true]
    split
    · rename_i hbehind
      rw [List.drop_of_length_le hbehind, List.take_nil, Nat.sub_eq_zero_of_le hbehind]
      simp [h]
    · unfold sub readAt
      rw [if_pos (by omega)]
      simp only [bind, Except.bind, Except.ok.injEq, Prod.mk.injEq]
      rw [List.take_eq_take_iff, List.length_drop]
      constructor
      · rintro ⟨c', ⟨hcut, -⟩, -⟩
        omega
      · intro hfits
        exact ⟨c, ⟨by omega, rfl⟩, h⟩
  | none =>
    simp only [Option.isSome_none, Bool.false_eq_true, if_false]
    unfold add sub withCapacity
    simp only [if_pos hrange, if_pos (show 1 ≤ offset + len by omega), bind, Except.bind]
    by_cases hcap : len ≤ maxCapacity
    · rw [if_pos hcap]
      have hcold := (cold_exact packName hsize hfetch).readRange offset len
      unfold BlockCache.readRange at hcold
      rw [if_neg hlen] at hcold
      have hlast : (offset + len - 1) / blockSize * blockSize ≤ offset + len - 1 := Nat.div_mul_le_self _ _
      have hle : offset / blockSize ≤ (offset + len - 1) / blockSize := Nat.div_le_div_right (by omega)
      refine iff_of_true (Caches.Exact.readBlocks hsize hrange hfile hfetch hmeanwhile h (.inr ?_) hcold) hcap
      have hends : ∀ s e : Nat, s ≤ e → s + (e + 1 - s) - 1 = e := by
        intro s e hse
        omega
      rw [hends _ _ hle]
      omega
    · rw [if_neg hcap]
      simp [hcap]

/-! ## Samples -/

/-- Nobody else is there, and the disk works. -/
def alone (_ : Nat) : Meanwhile := ⟨true, [], none, true⟩

theorem alone_exact {blockSize : Nat} {remote : Str → Bytes} (b : Nat) : (alone b).Exact blockSize remote :=
  ⟨fun _ h => (by cases h), fun _ h => (by cases h)⟩

/-- A fetcher that has the file. -/
def fetchOf (file : Bytes) (offset len : Nat) : Option Bytes := some ((file.drop offset).take len)

def bare : Caches := ⟨.empty 32, fun _ => none, fun _ => none⟩

theorem bare_exact {blockSize : Nat} {remote : Str → Bytes} : bare.Exact blockSize remote :=
  ⟨fun _ _ h => (by cases h), fun _ _ h => (by cases h), fun _ _ h => (by cases h)⟩

def sevenBytes : Bytes := [10, 11, 12, 13, 14, 15, 16]

/-- The first block is in memory and the second one on disk. -/
def mixed : Caches := (bare.putMemory (['p'], 0) [10, 11, 12]).putFile (['p'], 1) [13, 14, 15] true

/-- A range that starts inside the first block and ends behind the file. -/
theorem read_range_is_slice_mixed :
    ∃ c', readRange (fetchOf sevenBytes) 3 linuxLimit ['p'] alone 2 100 mixed =
        .ok ((sevenBytes.drop 2).take 100, c') ∧ c'.Exact 3 (fun _ => sevenBytes) := by
  have hfirst : (bare.putMemory (['p'], 0) [10, 11, 12]).Exact 3 (fun _ => sevenBytes) :=
    bare_exact.putMemory (by decide)
  have hmixed : mixed.Exact 3 (fun _ => sevenBytes) := hfirst.putFile (by decide) true
  refine (read_range_is_slice (by decide) hmixed (by decide) (by decide) (fun _ _ => rfl) alone_exact).mpr ?_
  unfold Fits
  decide

def zeros (n : Nat) : Bytes := List.replicate n 0

/-- A file of `n` zeros, on disk as a whole. -/
def wholeZeros (n : Nat) : Caches := { bare with fullPacks := fun _ => some (zeros n) }

theorem readRange_wholeZeros (blockSize limit n : Nat) (hn : 0 < n) :
    readRange (fetchOf (zeros n)) blockSize limit ['p'] alone 0 n (wholeZeros n) =
      .ok (zeros (min n limit), wholeZeros n) := by
  have hlength : (zeros n).length = n := List.length_replicate
  unfold readRange wholeZeros sub readAt
  simp only [hlength]
  rw [if_neg (by omega), if_neg (by omega), if_pos (Nat.zero_le n)]
  simp only [bind, Except.bind, Nat.sub_zero, Nat.min_self, List.drop_zero, zeros, List.take_replicate]
  rw [Nat.min_comm (min n limit), Nat.min_eq_right (by omega)]

/-- A range of an empty file is asked for with a length that no vector can have. A file that is on disk is read
once, and is longer than what one read transfers. -/
theorem read_range_cut_short :
    (bare.Exact 1000 (fun _ => []) ∧
      readRange (fetchOf []) 1000 linuxLimit ['p'] alone 0 (2 ^ 63) bare = .error .panic) ∧
    (wholeZeros (linuxLimit + 1)).Exact 1000 (fun _ => zeros (linuxLimit + 1)) ∧
      readRange (fetchOf (zeros (linuxLimit + 1))) 1000 linuxLimit ['p'] alone 0 (linuxLimit + 1)
          (wholeZeros (linuxLimit + 1)) = .ok (zeros linuxLimit, wholeZeros (linuxLimit + 1)) ∧
      zeros linuxLimit ≠ ((zeros (linuxLimit + 1)).drop 0).take (linuxLimit + 1) := by
  refine ⟨⟨bare_exact, ?_⟩, ?_, ?_, ?_⟩
  · have hcap : ¬ 2 ^ 63 ≤ maxCapacity := by decide
    unfold readRange add sub withCapacity
    rw [if_neg hcap]
    rfl
  · exact ⟨bare_exact.memory, bare_exact.files, fun _ _ h => (Option.some.inj h).symm⟩
  · rw [readRange_wholeZeros 1000 linuxLimit _ (Nat.succ_pos _), Nat.min_eq_right (Nat.le_succ _)]
  · intro heq
    have hlength := congrArg List.length heq
    unfold zeros at hlength
    rw [List.drop_zero, List.length_take, List.length_replicate, List.length_replicate, Nat.min_self] at hlength
    exact absurd hlength (Nat.ne_of_lt (Nat.lt_succ_self _))

end GitNfs.BlockReads
