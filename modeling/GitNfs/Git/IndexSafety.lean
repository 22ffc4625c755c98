import GitNfs.Git.PackIndex
import GitNfs.Lib.Checked
import Mathlib.Data.List.GetD

/-! # An index that nobody vouches for

`parse` and the lookups once more, with every place that can panic. No bytes make them do it.
-/

namespace GitNfs

def bytesIn (data : Bytes) (start width : Nat) : Option Bytes := Checked.slice data start (start + width)

def wordIn (data : Bytes) (start : Nat) : Option Nat := (bytesIn data start 4).map fromBeBytes

/-- The second loop over the offsets: each large one is put in the place that was left for it. -/
def fillLarge (data : Bytes) (largeTableStart : Nat) :
    List (Nat × Nat) → List Nat → Option (Except IndexError (List Nat))
  | [], offsets => some (.ok offsets)
  | (objIdx, largeIdx) :: rest, offsets => do
    let start ← Checked.fits (largeTableStart + largeIdx * 8)
    let stop ← Checked.fits (start + 8)
    let limit ← Checked.sub data.length 40
    if limit < stop then some (.error .largeOffset)
    else
      let off ← bytesIn data start 8
      if objIdx < offsets.length then fillLarge data largeTableStart rest (offsets.set objIdx (fromBeBytes off))
      else none

namespace PackIndex

def parseChecked (packName : Str) (data : Bytes) : Option (Except IndexError PackIndex) :=
  if data.length < 8 + 1024 + 40 then some (.error (.tooShort data.length))
  else do
    let magic ← bytesIn data 0 4
    if magic ≠ [0xFF, 0x74, 0x4F, 0x63] then some (.error (.invalidMagic magic))
    else
      let version ← wordIn data 4
      if version ≠ 2 then some (.error (.unsupportedVersion version))
      else
        let fanout ← (List.range 256).mapM fun i => wordIn data (8 + i * 4)
        let numObjects ← fanout[255]?
        let shasStart := 8 + 1024
        let shasEnd ← Checked.fits (shasStart + numObjects * 20)
        let offsetsStart ← Checked.fits (shasEnd + numObjects * 4)
        let offsetsEnd ← Checked.fits (offsetsStart + numObjects * 4)
        let expected ← Checked.fits (offsetsEnd + 40)
        if data.length < expected then some (.error (.truncated expected numObjects data.length))
        else
          let shas ← (List.range numObjects).mapM fun i => bytesIn data (shasStart + i * 20) 20
          let rawOffsets ← (List.range numObjects).mapM fun i => wordIn data (offsetsStart + i * 4)
          let large := rawOffsets.zipIdx.filterMap fun r => if 2 ^ 31 ≤ r.1 then some (r.2, r.1 % 2 ^ 31) else none
          let placeholders := rawOffsets.map fun raw => if 2 ^ 31 ≤ raw then 0 else raw
          match ← fillLarge data offsetsEnd large placeholders with
          | .error e => some (.error e)
          | .ok offsets =>
            let packShaOffset ← Checked.sub data.length 40
            let packSha ← bytesIn data packShaOffset 20
            some (.ok {
              packName := packName
              fanout := fanout
              shas := shas
              offsets := offsets
              sortedOffsets := offsets.insertionSort (· ≤ ·)
              packSha := packSha })

def getObjectLenAtOffsetChecked (index : PackIndex) (offset : Nat) : Option (Option Nat) :=
  match Search.binarySearch (compare · offset) index.sortedOffsets with
  | none => some none
  | some sortedIdx =>
    if sortedIdx + 1 < index.sortedOffsets.length then do
      let nextOff ← index.sortedOffsets[sortedIdx + 1]?
      let len ← Checked.sub nextOff offset
      some (some len)
    else some none

def findOffsetChecked (index : PackIndex) (sha : Bytes) : Option (Option (Nat × Nat)) := do
  let first ← sha[0]?
  let firstByte := first.toNat
  let low ← (if firstByte = 0 then some 0 else (Checked.sub firstByte 1).bind fun before => index.fanout[before]?)
  let high ← index.fanout[firstByte]?
  if high ≤ low ∨ index.shas.length < high then some none
  else
    let part ← Checked.slice index.shas low high
    match Search.binarySearch (compareBytes · sha) part with
    | none => some none
    | some pos =>
      let offset ← index.offsets[low + pos]?
      let len ← index.getObjectLenAtOffsetChecked offset
      some (some (offset, len.getD (64 * 1024)))

end PackIndex

/-! ## Reads that are in range -/

theorem bytesIn_eq {data : Bytes} {start width : Nat} (h : start + width ≤ data.length) :
    bytesIn data start width = some (bytesAt data start width) := by
  rw [bytesIn, Checked.slice_eq (Nat.le_add_right _ _) h, Nat.add_sub_cancel_left, bytesAt]

theorem wordIn_eq {data : Bytes} {start : Nat} (h : start + 4 ≤ data.length) :
    wordIn data start = some (wordAt data start) := by
  rw [wordIn, bytesIn_eq h, Option.map_some, wordAt]

theorem fromBeBytes_lt (b : Bytes) : fromBeBytes b < 256 ^ b.length := by
  unfold fromBeBytes
  suffices h : ∀ n, b.foldl (fun n b => n * 256 + b.toNat) n < (n + 1) * 256 ^ b.length by
    simpa using h 0
  induction b with
  | nil => simp
  | cons x b ih =>
    intro n
    have hx : x.toNat < 256 := x.toNat_lt
    calc (x :: b).foldl (fun n b => n * 256 + b.toNat) n
        = b.foldl (fun n b => n * 256 + b.toNat) (n * 256 + x.toNat) := rfl
      _ < (n * 256 + x.toNat + 1) * 256 ^ b.length := ih _
      _ ≤ ((n + 1) * 256) * 256 ^ b.length := Nat.mul_le_mul_right _ (by omega)
      _ = (n + 1) * 256 ^ (x :: b).length := by rw [List.length_cons, Nat.pow_succ', Nat.mul_assoc]

theorem wordAt_lt (data : Bytes) (start : Nat) : wordAt data start < 2 ^ 32 := by
  refine Nat.lt_of_lt_of_le (fromBeBytes_lt _) ?_
  have hlen : (bytesAt data start 4).length ≤ 4 := List.length_take_le _ _
  exact Nat.pow_le_pow_right (by decide : 0 < 256) hlen

/-- The loop leaves every large offset in its place, and fails where one is out of the table. The induction is on
the places that are left, behind those that are done. -/
theorem fillLarge_eq {data : Bytes} (offsetsStart : Nat) {offsetsEnd : Nat} (hdata : 40 ≤ data.length)
    (hend : offsetsEnd < 2 ^ 63) (is done : List Nat) :
    let raw := is.map fun i => wordAt data (offsetsStart + i * 4)
    fillLarge data offsetsEnd
        ((raw.zipIdx done.length).filterMap fun r => if 2 ^ 31 ≤ r.1 then some (r.2, r.1 % 2 ^ 31) else none)
        (done ++ raw.map fun raw => if 2 ^ 31 ≤ raw then 0 else raw) =
      some ((offsetsAt data offsetsStart offsetsEnd is).map (done ++ ·)) := by
  intro raw
  induction is generalizing done with
  | nil => rfl
  | cons i is ih =>
    simp only [raw, List.map_cons, List.zipIdx_cons] at ih ⊢
    generalize hw : wordAt data (offsetsStart + i * 4) = w
    have hstep (v : Nat) := ih (done ++ [v])
    simp only [List.length_append, List.length_cons, List.length_nil, List.append_assoc, List.cons_append,
      List.nil_append] at hstep
    rw [offsetsAt, offsetAt, hw]
    by_cases hlarge : 2 ^ 31 ≤ w
    · have hmod : w % 2 ^ 31 < 2 ^ 31 := Nat.mod_lt _ (by decide)
      simp only [List.filterMap_cons, if_pos hlarge, if_neg (Nat.not_lt.mpr hlarge)]
      simp only [fillLarge, Option.bind_eq_bind]
      rw [Checked.fits_eq (by omega), Option.bind_some, Checked.fits_eq (by omega), Option.bind_some,
        Checked.sub_eq hdata, Option.bind_some]
      by_cases hlimit : data.length - 40 < offsetsEnd + w % 2 ^ 31 * 8 + 8
      · rw [if_pos hlimit, if_pos hlimit]
        rfl
      · rw [if_neg hlimit, if_neg hlimit, bytesIn_eq (by omega), Option.bind_some, if_pos (by simp),
          List.set_append_right _ _ (Nat.le_refl _), Nat.sub_self, List.set_cons_zero, hstep]
        cases offsetsAt data offsetsStart offsetsEnd is <;> rfl
    · simp only [List.filterMap_cons, if_neg hlarge, if_pos (Nat.not_le.mp hlarge), hstep]
      cases offsetsAt data offsetsStart offsetsEnd is <;> rfl

namespace PackIndex

/-- No bytes make `parse` panic. -/
theorem parseChecked_eq (packName : Str) (data : Bytes) :
    parseChecked packName data = some (parse packName data) := by
  unfold parseChecked parse
  by_cases hshort : data.length < 8 + 1024 + 40
  · rw [if_pos hshort, if_pos hshort]
  rw [if_neg hshort, if_neg hshort, bytesIn_eq (by omega), Option.bind_eq_bind, Option.bind_some]
  by_cases hmagic : bytesAt data 0 4 ≠ [0xFF, 0x74, 0x4F, 0x63]
  · rw [if_pos hmagic, if_pos hmagic]
  rw [if_neg hmagic, if_neg hmagic, wordIn_eq (by omega), Option.bind_eq_bind, Option.bind_some]
  by_cases hversion : wordAt data 4 ≠ 2
  · rw [if_pos hversion, if_pos hversion]
  rw [if_neg hversion, if_neg hversion]
  have hfan : ∀ i ∈ List.range 256, wordIn data (8 + i * 4) = some (wordAt data (8 + i * 4)) := by
    intro i hi
    have := List.mem_range.mp hi
    exact wordIn_eq (by omega)
  rw [Checked.mapM_eq hfan, Option.bind_eq_bind, Option.bind_some]
  generalize hfanout : (List.range 256).map (fun i => wordAt data (8 + i * 4)) = fanout
  have hlast : fanout[255]? = some (wordAt data (8 + 255 * 4)) := by
    rw [← hfanout, List.getElem?_map, List.getElem?_range (by decide)]
    rfl
  have hcount := wordAt_lt data (8 + 255 * 4)
  simp only [hlast, List.getD_eq_getElem?_getD, Option.getD_some, Option.bind_eq_bind, Option.bind_some]
  generalize wordAt data (8 + 255 * 4) = n at hcount
  rw [Checked.fits_eq (by omega), Option.bind_some, Checked.fits_eq (by omega), Option.bind_some,
    Checked.fits_eq (by omega), Option.bind_some, Checked.fits_eq (by omega), Option.bind_some]
  by_cases htruncated : data.length < 8 + 1024 + n * 20 + n * 4 + n * 4 + 40
  · rw [if_pos htruncated, if_pos htruncated]
  rw [if_neg htruncated, if_neg htruncated]
  have hshas : ∀ i ∈ List.range n, bytesIn data (8 + 1024 + i * 20) 20 = some (bytesAt data (8 + 1024 + i * 20) 20) := by
    intro i hi
    have := List.mem_range.mp hi
    exact bytesIn_eq (by omega)
  have hwords : ∀ i ∈ List.range n, wordIn data (8 + 1024 + n * 20 + n * 4 + i * 4) =
      some (wordAt data (8 + 1024 + n * 20 + n * 4 + i * 4)) := by
    intro i hi
    have := List.mem_range.mp hi
    exact wordIn_eq (by omega)
  rw [Checked.mapM_eq hshas, Option.bind_some, Checked.mapM_eq hwords, Option.bind_some]
  have hlarge : 8 + 1024 + n * 20 + n * 4 + n * 4 < 2 ^ 63 := by omega
  have hfill := fillLarge_eq (8 + 1024 + n * 20 + n * 4) (show 40 ≤ data.length by omega) hlarge (List.range n) []
  simp only [List.length_nil, List.nil_append] at hfill
  rw [hfill, Option.bind_some]
  cases offsetsAt data (8 + 1024 + n * 20 + n * 4) (8 + 1024 + n * 20 + n * 4 + n * 4) (List.range n) with
  | error e => rfl
  | ok offsets =>
    show (Checked.sub data.length 40).bind _ = _
    rw [Checked.sub_eq (by omega), Option.bind_some, bytesIn_eq (by omega), Option.bind_some]

end PackIndex

/-! ## What the tables say -/

def numObjects (data : Bytes) : Nat := wordAt data (8 + 255 * 4)

/-- The `i`-th entry of the SHA table. -/
def tableSha (data : Bytes) (i : Nat) : Bytes := bytesAt data (8 + 1024 + i * 20) 20

/-- The offset of the `i`-th entry, from its word or from the table of large offsets. -/
def TableOffset (data : Bytes) (i offset : Nat) : Prop :=
  let offsetsStart := 8 + 1024 + numObjects data * 20 + numObjects data * 4
  let raw := wordAt data (offsetsStart + i * 4)
  let start := offsetsStart + numObjects data * 4 + raw % 2 ^ 31 * 8
  raw < 2 ^ 31 ∧ offset = raw ∨
    2 ^ 31 ≤ raw ∧ start + 8 ≤ data.length - 40 ∧ offset = fromBeBytes (bytesAt data start 8)

/-- The SHA table is strictly sorted, and the fanout counts it. -/
structure WellOrdered (data : Bytes) : Prop where
  sorted : ∀ j < numObjects data, ∀ i < j, compareBytes (tableSha data i) (tableSha data j) = .lt
  counts : ∀ b < 256, wordAt data (8 + b * 4) =
    (List.range (numObjects data)).countP fun i => ((tableSha data i).headD 0).toNat ≤ b

/-- An index that holds what the tables say. -/
structure Reads (data : Bytes) (index : PackIndex) : Prop where
  fanout : index.fanout = (List.range 256).map fun b => wordAt data (8 + b * 4)
  shas : index.shas = (List.range (numObjects data)).map (tableSha data)
  shas_length : ∀ i < numObjects data, (tableSha data i).length = 20
  offsets_length : index.offsets.length = numObjects data
  offsets : ∀ i < numObjects data, TableOffset data i (index.offsets.getD i 0)
  sorted : index.sortedOffsets = index.offsets.insertionSort (· ≤ ·)

theorem offsetAt_table {data : Bytes} {i offset : Nat}
    (h : offsetAt data (8 + 1024 + numObjects data * 20 + numObjects data * 4)
      (8 + 1024 + numObjects data * 20 + numObjects data * 4 + numObjects data * 4) i = .ok offset) :
    TableOffset data i offset := by
  unfold offsetAt at h
  simp only at h
  split_ifs at h with hsmall hlimit
  · exact .inl ⟨hsmall, (Except.ok.inj h).symm⟩
  · exact .inr ⟨Nat.not_lt.mp hsmall, Nat.not_lt.mp hlimit, (Except.ok.inj h).symm⟩

theorem offsetsAt_each {data : Bytes} {offsetsStart offsetsEnd : Nat} {is offsets : List Nat}
    (h : offsetsAt data offsetsStart offsetsEnd is = .ok offsets) :
    List.Forall₂ (fun i offset => offsetAt data offsetsStart offsetsEnd i = .ok offset) is offsets := by
  induction is generalizing offsets with
  | nil =>
    cases h
    exact .nil
  | cons i is ih =>
    rw [offsetsAt] at h
    cases hi : offsetAt data offsetsStart offsetsEnd i with
    | error e => simp [hi] at h
    | ok offset =>
      cases his : offsetsAt data offsetsStart offsetsEnd is with
      | error e => simp [hi, his] at h
      | ok rest =>
        simp only [hi, his, Except.ok.injEq] at h
        subst h
        exact .cons hi (ih his)

theorem parse_reads {packName : Str} {data : Bytes} {index : PackIndex}
    (h : PackIndex.parse packName data = .ok index) : Reads data index := by
  unfold PackIndex.parse at h
  have hlast : ((List.range 256).map fun i => wordAt data (8 + i * 4)).getD 255 0 = numObjects data := by
    rw [List.getD_eq_getElem?_getD, List.getElem?_map, List.getElem?_range (by decide)]
    rfl
  simp only [hlast] at h
  split_ifs at h with hshort hmagic hversion htruncated
  split at h
  · exact absurd h (by simp)
  · rename_i offsets hoffsets
    obtain rfl := (Except.ok.inj h).symm
    have heach := offsetsAt_each hoffsets
    have hlen : offsets.length = numObjects data := by rw [← heach.length_eq, List.length_range]
    refine ⟨rfl, rfl, fun i hi => ?_, hlen, fun i hi => ?_, rfl⟩
    · rw [tableSha, bytesAt, List.length_take, List.length_drop]
      omega
    · rw [List.getD_eq_getElem _ _ (hlen ▸ hi)]
      have hget := heach.get (i := i) (by rw [List.length_range]; exact hi) (hlen ▸ hi)
      rw [List.get_eq_getElem, List.getElem_range] at hget
      exact offsetAt_table hget

/-! ## Lookups -/

namespace Reads

variable {data : Bytes} {index : PackIndex}

/-- No offset makes the search for the next one panic. -/
theorem getObjectLenAtOffsetChecked_eq (h : Reads data index) (offset : Nat) :
    index.getObjectLenAtOffsetChecked offset = some (index.getObjectLenAtOffset offset) := by
  have hsorted : index.sortedOffsets.Pairwise (· ≤ ·) := h.sorted ▸ List.pairwise_insertionSort _ _
  unfold PackIndex.getObjectLenAtOffsetChecked PackIndex.getObjectLenAtOffset
  cases hfind : Search.binarySearch (compare · offset) index.sortedOffsets with
  | none => rfl
  | some i =>
    obtain ⟨a, ha, heq⟩ := Search.binarySearch_some hfind
    obtain rfl := Nat.compare_eq_eq.mp heq
    obtain ⟨hi, rfl⟩ := List.getElem?_eq_some_iff.mp ha
    simp only
    by_cases hnext : i + 1 < index.sortedOffsets.length
    · have hle := List.pairwise_iff_getElem.mp hsorted i (i + 1) hi hnext (Nat.lt_succ_self i)
      rw [if_pos hnext, List.getElem?_eq_getElem hnext, Option.bind_eq_bind, Option.bind_some, Checked.sub_eq hle]
      rfl
    · rw [if_neg hnext, List.getElem?_eq_none (Nat.not_lt.mp hnext)]
      rfl

theorem fanout_getElem? (h : Reads data index) {b : Nat} (hb : b < 256) :
    index.fanout[b]? = some (index.fanout.getD b 0) := by
  have hlen : b < index.fanout.length := by rw [h.fanout, List.length_map, List.length_range]; exact hb
  rw [List.getElem?_eq_getElem hlen, List.getD_eq_getElem _ _ hlen]

theorem shas_offsets_length (h : Reads data index) : index.shas.length = index.offsets.length := by
  rw [h.offsets_length, h.shas, List.length_map, List.length_range]

/-- No name makes a lookup panic. -/
theorem findOffsetChecked_eq (h : Reads data index) {sha : Bytes} (hsha : sha ≠ []) :
    index.findOffsetChecked sha = some (index.findOffset sha) := by
  have hfirst : sha[0]? = some (sha.headD 0) := by
    cases sha with
    | nil => exact absurd rfl hsha
    | cons first rest => rfl
  have hbyte : (sha.headD 0).toNat < 256 := (sha.headD 0).toNat_lt
  unfold PackIndex.findOffsetChecked PackIndex.findOffset
  simp only [hfirst, Option.bind_eq_bind, Option.bind_some]
  generalize (sha.headD 0).toNat = firstByte at hbyte
  have hlow : (if firstByte = 0 then some 0 else (Checked.sub firstByte 1).bind fun before => index.fanout[before]?) =
      some (if firstByte = 0 then 0 else index.fanout.getD (firstByte - 1) 0) := by
    split_ifs with hzero
    · rfl
    · rw [Checked.sub_eq (by omega), Option.bind_some, h.fanout_getElem? (by omega)]
  rw [hlow, Option.bind_some, h.fanout_getElem? hbyte, Option.bind_some]
  generalize (if firstByte = 0 then 0 else index.fanout.getD (firstByte - 1) 0) = low
  generalize index.fanout.getD firstByte 0 = high
  by_cases hempty : high ≤ low ∨ index.shas.length < high
  · rw [if_pos hempty, if_pos hempty]
  rw [if_neg hempty, if_neg hempty, Checked.slice_eq (by omega) (by omega), Option.bind_some]
  cases hfind : Search.binarySearch (compareBytes · sha) ((index.shas.drop low).take (high - low)) with
  | none => rfl
  | some pos =>
    obtain ⟨a, ha, -⟩ := Search.binarySearch_some hfind
    obtain ⟨hpos, -⟩ := List.getElem?_eq_some_iff.mp ha
    rw [List.length_take, List.length_drop] at hpos
    have hin : low + pos < index.offsets.length := by
      rw [← h.shas_offsets_length]
      omega
    simp only
    rw [List.getElem?_eq_getElem hin, Option.bind_some, h.getObjectLenAtOffsetChecked_eq, Option.bind_some,
      List.getD_eq_getElem _ _ hin]

/-- What is found is an entry with its offset, whatever the fanout says and however the names are ordered. -/
theorem findOffset_sound (h : Reads data index) {sha : Bytes} {offset len : Nat}
    (hfound : index.findOffset sha = some (offset, len)) :
    ∃ i < numObjects data, tableSha data i = sha ∧ TableOffset data i offset := by
  unfold PackIndex.findOffset at hfound
  simp only at hfound
  generalize (if (sha.headD 0).toNat = 0 then 0 else index.fanout.getD ((sha.headD 0).toNat - 1) 0) = low at hfound
  split at hfound
  · exact absurd hfound (by simp)
  · split at hfound
    · exact absurd hfound (by simp)
    · rename_i pos hpos
      obtain ⟨found, hget, heq⟩ := Search.binarySearch_some hpos
      obtain rfl := (compareBytes_eq_iff _ _).mp heq
      obtain ⟨hlt, -⟩ := List.getElem?_eq_some_iff.mp hget
      rw [List.length_take] at hlt
      rw [List.getElem?_take_of_lt (by omega), List.getElem?_drop, h.shas, List.getElem?_map,
        Option.map_eq_some_iff] at hget
      obtain ⟨i, hi, hsha⟩ := hget
      obtain ⟨hin, hi⟩ := List.getElem?_eq_some_iff.mp hi
      rw [List.getElem_range] at hi
      rw [List.length_range] at hin
      simp only [Option.some.injEq, Prod.mk.injEq] at hfound
      refine ⟨low + pos, hin, hi ▸ hsha, ?_⟩
      rw [← hfound.1]
      exact h.offsets _ hin

/-- Names in order that the fanout counts are all found. -/
theorem findOffset_complete (h : Reads data index) (hordered : WellOrdered data) {i : Nat}
    (hi : i < numObjects data) :
    ∃ offset len, index.findOffset (tableSha data i) = some (offset, len) ∧ TableOffset data i offset := by
  let entries : List ObjectEntry :=
    (List.range (numObjects data)).map fun i => ⟨tableSha data i, index.offsets.getD i 0, 0⟩
  have hsorted : (List.range (numObjects data)).Pairwise
      fun i j => compareBytes (tableSha data i) (tableSha data j) = .lt := by
    rw [List.pairwise_iff_getElem]
    intro i j hi hj hij
    rw [List.length_range] at hj
    rw [List.getElem_range, List.getElem_range]
    exact hordered.sorted j hj i hij
  have hindexed : Indexed entries := by
    refine ⟨?_, ?_, ?_⟩
    · refine List.pairwise_map.mpr (hsorted.imp fun hlt => ?_)
      rw [hlt]
      rfl
    · rw [List.map_map]
      refine List.pairwise_map.mpr (hsorted.imp fun {i j} hlt heq => ?_)
      have heq : tableSha data i = tableSha data j := heq
      rw [heq, (compareBytes_eq_iff _ _).mpr rfl] at hlt
      exact absurd hlt (by decide)
    · intro e he
      obtain ⟨i, hi, rfl⟩ := List.mem_map.mp he
      exact h.shas_length i (List.mem_range.mp hi)
  have hoffsets : entries.map (·.packOffset) = index.offsets := by
    rw [List.map_map]
    refine List.ext_getElem (by simp [h.offsets_length]) fun i hi hi' => ?_
    simp only [List.getElem_map, List.getElem_range, Function.comp_apply]
    exact List.getD_eq_getElem _ _ hi'
  have hindex : index = PackIndex.ofEntries index.packName entries index.packSha := by
    have hfanout : index.fanout = fanoutOf entries := by
      rw [h.fanout, fanoutOf]
      refine List.map_congr_left fun b hb => ?_
      rw [hordered.counts b (List.mem_range.mp hb), List.countP_map]
      rfl
    have hshas : index.shas = entries.map (·.oidBytes) := by
      rw [h.shas, List.map_map]
      rfl
    unfold PackIndex.ofEntries
    rw [← hfanout, ← hshas, hoffsets, ← h.sorted]
  have hfound := hindexed.findOffset_some index.packName index.packSha
    (List.mem_map.mpr ⟨i, List.mem_range.mpr hi, rfl⟩)
  rw [← hindex] at hfound
  exact ⟨_, _, hfound, h.offsets i hi⟩

end Reads

/-- No bytes make an index panic, and what it finds is what its tables say. -/
theorem index_is_safe (packName : Str) (data : Bytes) :
    ∃ parsed, PackIndex.parseChecked packName data = some parsed ∧ ∀ index, parsed = .ok index →
      (∀ offset, ∃ len, index.getObjectLenAtOffsetChecked offset = some len) ∧
      (∀ k : Bytes, k.length = 20 → ∃ found, index.findOffsetChecked k = some found ∧
        ∀ offset len, found = some (offset, len) →
          ∃ i < numObjects data, tableSha data i = k ∧ TableOffset data i offset) ∧
      (WellOrdered data → ∀ i < numObjects data, ∃ offset len,
        index.findOffsetChecked (tableSha data i) = some (some (offset, len)) ∧ TableOffset data i offset) := by
  refine ⟨_, PackIndex.parseChecked_eq packName data, fun index hparse => ?_⟩
  have hreads := parse_reads hparse
  have hne {k : Bytes} (hk : k.length = 20) : k ≠ [] := by
    rintro rfl
    exact absurd hk (by decide)
  refine ⟨fun offset => ⟨_, hreads.getObjectLenAtOffsetChecked_eq offset⟩, fun k hk => ?_, fun hordered i hi => ?_⟩
  · exact ⟨_, hreads.findOffsetChecked_eq (hne hk), fun offset len hfound => hreads.findOffset_sound hfound⟩
  · obtain ⟨offset, len, hfound, htable⟩ := hreads.findOffset_complete hordered hi
    refine ⟨offset, len, ?_, htable⟩
    rw [hreads.findOffsetChecked_eq (hne (hreads.shas_length i hi)), hfound]

/-- The fanout of one object whose first byte is 7. -/
def sevenFanout (b : Nat) : UInt32 := if b < 7 then 0 else 1

/-- One object, whose offset is in the table of large offsets. -/
def largeOffsetIndex : Bytes :=
  [0xFF, 0x74, 0x4F, 0x63, 0, 0, 0, 2] ++ (List.range 256).flatMap (fun b => u32ToBeBytes (sevenFanout b)) ++
    (List.replicate 20 7 ++ [1, 2, 3, 4] ++ [0x80, 0, 0, 0] ++ [0, 0, 0, 2, 0, 0, 0, 5] ++ List.replicate 40 9)

theorem largeOffsetIndex_fanout {b : Nat} (hb : b < 256) :
    wordAt largeOffsetIndex (8 + b * 4) = (sevenFanout b).toNat := by
  have hfan : (List.range (List.range 256).length).map (fun i => wordAt largeOffsetIndex (8 + i * 4)) =
      (List.range 256).map fun b => (sevenFanout b).toNat :=
    map_wordAt_table [0xFF, 0x74, 0x4F, 0x63, 0, 0, 0, 2] _ rfl rfl
  have hget := congrArg (·[b]?) hfan
  simpa [hb] using hget

theorem largeOffsetIndex_wellOrdered : WellOrdered largeOffsetIndex := by
  have hcount : numObjects largeOffsetIndex = 1 := largeOffsetIndex_fanout (by decide)
  have hsha : tableSha largeOffsetIndex 0 = List.replicate 20 7 := by decide +kernel
  constructor
  · rw [hcount]
    intro j hj i hij
    omega
  · intro b hb
    rw [largeOffsetIndex_fanout hb, hcount, List.range_one, List.countP_singleton, hsha]
    unfold sevenFanout
    by_cases hseven : b < 7
    · rw [if_pos hseven, if_neg (by simpa using hseven)]
      rfl
    · rw [if_neg hseven, if_pos (by simpa using hseven)]
      rfl

theorem index_is_safe_large : ∃ index, PackIndex.parseChecked [] largeOffsetIndex = some (.ok index) ∧
    ∃ offset len, index.findOffsetChecked (tableSha largeOffsetIndex 0) = some (some (offset, len)) ∧
      TableOffset largeOffsetIndex 0 offset := by
  have hparses : (PackIndex.parse [] largeOffsetIndex).toOption.isSome = true := by decide +kernel
  obtain ⟨parsed, hparsed, hsafe⟩ := index_is_safe [] largeOffsetIndex
  have hparse := Option.some.inj (hparsed.symm.trans (PackIndex.parseChecked_eq [] largeOffsetIndex))
  cases parsed with
  | error e =>
    rw [← hparse] at hparses
    exact absurd hparses (by simp [Except.toOption])
  | ok index =>
    have hone : 0 < numObjects largeOffsetIndex := by
      rw [numObjects, largeOffsetIndex_fanout (by decide)]
      decide
    exact ⟨index, hparsed, (hsafe index rfl).2.2 largeOffsetIndex_wellOrdered 0 hone⟩

end GitNfs
