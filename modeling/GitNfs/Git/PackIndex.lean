import GitNfs.Lib.Search
import GitNfs.Git.PackWriter

/-! # Reading an index -/

namespace GitNfs

inductive IndexError where
  | tooShort (len : Nat)
  | invalidMagic (magic : Bytes)
  | unsupportedVersion (version : Nat)
  | truncated (expected objects got : Nat)
  | largeOffset
  deriving DecidableEq, Repr

structure PackIndex where
  packName : Str
  fanout : List Nat
  shas : List Bytes
  offsets : List Nat
  sortedOffsets : List Nat
  packSha : Bytes
  deriving DecidableEq, Repr

def bytesAt (data : Bytes) (start width : Nat) : Bytes := (data.drop start).take width

def wordAt (data : Bytes) (start : Nat) : Nat := fromBeBytes (bytesAt data start 4)

/-- The offset of the `i`-th object. One with its high bit set is a place in the table of large offsets,
which follows the others. -/
def offsetAt (data : Bytes) (offsetsStart offsetsEnd i : Nat) : Except IndexError Nat :=
  let rawOffset := wordAt data (offsetsStart + i * 4)
  if rawOffset < 2 ^ 31 then .ok rawOffset
  else
    let start := offsetsEnd + rawOffset % 2 ^ 31 * 8
    if data.length - 40 < start + 8 then .error .largeOffset
    else .ok (fromBeBytes (bytesAt data start 8))

def offsetsAt (data : Bytes) (offsetsStart offsetsEnd : Nat) : List Nat → Except IndexError (List Nat)
  | [] => .ok []
  | i :: is =>
    match offsetAt data offsetsStart offsetsEnd i with
    | .error e => .error e
    | .ok offset =>
      match offsetsAt data offsetsStart offsetsEnd is with
      | .error e => .error e
      | .ok offsets => .ok (offset :: offsets)

namespace PackIndex

def parse (packName : Str) (data : Bytes) : Except IndexError PackIndex :=
  if data.length < 8 + 1024 + 40 then .error (.tooShort data.length)
  else if bytesAt data 0 4 ≠ [0xFF, 0x74, 0x4F, 0x63] then .error (.invalidMagic (bytesAt data 0 4))
  else if wordAt data 4 ≠ 2 then .error (.unsupportedVersion (wordAt data 4))
  else
    let fanout := (List.range 256).map fun i => wordAt data (8 + i * 4)
    let numObjects := fanout.getD 255 0
    let shasStart := 8 + 1024
    let shasEnd := shasStart + numObjects * 20
    let offsetsStart := shasEnd + numObjects * 4
    let offsetsEnd := offsetsStart + numObjects * 4
    if data.length < offsetsEnd + 40 then .error (.truncated (offsetsEnd + 40) numObjects data.length)
    else
      match offsetsAt data offsetsStart offsetsEnd (List.range numObjects) with
      | .error e => .error e
      | .ok offsets =>
        .ok {
          packName := packName
          fanout := fanout
          shas := (List.range numObjects).map fun i => bytesAt data (shasStart + i * 20) 20
          offsets := offsets
          sortedOffsets := offsets.insertionSort (· ≤ ·)
          packSha := bytesAt data (data.length - 40) 20 }

/-- How far it is from an offset to the next one, if there is a next one. -/
def getObjectLenAtOffset (index : PackIndex) (offset : Nat) : Option Nat :=
  match Search.binarySearch (compare · offset) index.sortedOffsets with
  | none => none
  | some i => index.sortedOffsets[i + 1]?.map (· - offset)

def findOffset (index : PackIndex) (sha : Bytes) : Option (Nat × Nat) :=
  let firstByte := (sha.headD 0).toNat
  let low := if firstByte = 0 then 0 else index.fanout.getD (firstByte - 1) 0
  let high := index.fanout.getD firstByte 0
  if high ≤ low ∨ index.shas.length < high then none
  else
    match Search.binarySearch (compareBytes · sha) ((index.shas.drop low).take (high - low)) with
    | none => none
    | some pos =>
      let offset := index.offsets.getD (low + pos) 0
      some (offset, (index.getObjectLenAtOffset offset).getD (64 * 1024))

def packShaHex (index : PackIndex) : Str := hexEncode index.packSha

end PackIndex

/-! ## Tables of one width -/

theorem bytesAt_table {α : Type*} {f : α → Bytes} {width : Nat} {l : List α}
    (hwidth : ∀ a ∈ l, (f a).length = width) (before behind : Bytes) (i : Nat) (hi : i < l.length) :
    bytesAt (before ++ l.flatMap f ++ behind) (before.length + i * width) width = f l[i] := by
  induction l generalizing before i with
  | nil => exact absurd hi (by simp)
  | cons a l ih =>
    have ha := hwidth a List.mem_cons_self
    cases i with
    | zero =>
      rw [bytesAt, Nat.zero_mul, Nat.add_zero, List.append_assoc, List.drop_left, List.flatMap_cons,
        List.append_assoc, List.take_left' ha, List.getElem_cons_zero]
    | succ i =>
      have h := ih (fun b hb => hwidth b (List.mem_cons_of_mem _ hb)) (before ++ f a) i (by simpa using hi)
      rw [List.length_append, ha] at h
      have hstart : before.length + (i + 1) * width = before.length + width + i * width := by
        rw [Nat.succ_mul]
        omega
      rw [List.getElem_cons_succ, ← h, hstart, List.flatMap_cons]
      simp only [List.append_assoc]

theorem map_bytesAt_table {α : Type*} {f : α → Bytes} {width start : Nat} {l : List α} {data : Bytes}
    (hwidth : ∀ a ∈ l, (f a).length = width) (before behind : Bytes) (hstart : start = before.length)
    (hdata : data = before ++ l.flatMap f ++ behind) :
    (List.range l.length).map (fun i => bytesAt data (start + i * width) width) = l.map f := by
  refine List.ext_getElem (by simp) fun i hi hi' => ?_
  have hlt : i < l.length := by simpa using hi
  rw [List.getElem_map, List.getElem_range, hdata, hstart, bytesAt_table hwidth before behind i hlt,
    List.getElem_map]

/-! ## The order of the names -/

theorem firstByte_le {a b : Bytes} (ha : a ≠ []) (hle : (compareBytes a b).isLE) :
    (a.headD 0).toNat ≤ (b.headD 0).toNat := by
  cases a with
  | nil => exact absurd rfl ha
  | cons x a =>
    cases b with
    | nil => simp [compareBytes] at hle
    | cons y b =>
      rw [compareBytes] at hle
      simp only [UInt8.lt_iff_toNat_lt] at hle
      show x.toNat ≤ y.toNat
      split_ifs at hle
      · omega
      · exact absurd hle (by decide)
      · omega

/-! ## The index of some entries -/

def ObjectEntry.firstByte (e : ObjectEntry) : Nat := (e.oidBytes.headD 0).toNat

def fanoutOf (entries : List ObjectEntry) : List Nat :=
  (List.range 256).map fun i => entries.countP fun e => e.firstByte ≤ i

theorem fanoutOf_getD (entries : List ObjectEntry) {i : Nat} (hi : i < 256) :
    (fanoutOf entries).getD i 0 = entries.countP fun e => e.firstByte ≤ i := by
  rw [fanoutOf, List.getD_eq_getElem?_getD, List.getElem?_map, List.getElem?_range hi]
  rfl

/-- What an index says that lists `entries`. -/
def PackIndex.ofEntries (packName : Str) (entries : List ObjectEntry) (packSha : Bytes) : PackIndex where
  packName := packName
  fanout := fanoutOf entries
  shas := entries.map (·.oidBytes)
  offsets := entries.map (·.packOffset)
  sortedOffsets := (entries.map (·.packOffset)).insertionSort (· ≤ ·)
  packSha := packSha

/-- The bytes of an index that lists `entries` in their order, but for the SHA at its end. -/
def idxBytes (entries : List ObjectEntry) (packSha : Bytes) : Bytes :=
  [0xFF, 0x74, 0x4F, 0x63] ++ u32ToBeBytes 2 ++
    (fanoutTable entries).flatMap u32ToBeBytes ++
    entries.flatMap (·.oidBytes) ++
    entries.flatMap (fun e => u32ToBeBytes e.crc32) ++
    entries.flatMap (fun e => u32ToBeBytes (UInt32.ofNat e.packOffset)) ++
    packSha

theorem createIdxV2Data_ok {entries : List ObjectEntry} {packSha idx : Bytes}
    (h : createIdxV2Data entries packSha = .ok idx) :
    let sorted := sortBy (fun a b => compareBytes a.oidBytes b.oidBytes) entries
    (∀ e ∈ sorted, e.packOffset < 2 ^ 31) ∧ idx = idxBytes sorted packSha ++ sha1 (idxBytes sorted packSha) := by
  intro sorted
  unfold createIdxV2Data at h
  simp only at h
  split_ifs at h with hlarge
  refine ⟨fun e he => ?_, (Except.ok.inj h).symm⟩
  by_contra hge
  exact hlarge (List.any_eq_true.mpr ⟨e, he, by simp only [decide_eq_true_eq]; omega⟩)

theorem flatMap_length_of_width {α : Type*} {f : α → Bytes} {width : Nat} {l : List α}
    (hwidth : ∀ a ∈ l, (f a).length = width) : (l.flatMap f).length = l.length * width := by
  induction l with
  | nil => simp
  | cons a l ih =>
    rw [List.flatMap_cons, List.length_append, hwidth a List.mem_cons_self,
      ih fun b hb => hwidth b (List.mem_cons_of_mem _ hb), List.length_cons, Nat.succ_mul, Nat.add_comm]

theorem map_wordAt_table {α : Type*} {f : α → UInt32} {start : Nat} {l : List α} {data : Bytes}
    (before behind : Bytes) (hstart : start = before.length)
    (hdata : data = before ++ l.flatMap (fun a => u32ToBeBytes (f a)) ++ behind) :
    (List.range l.length).map (fun i => wordAt data (start + i * 4)) = l.map fun a => (f a).toNat := by
  have h : (List.range l.length).map (fun i => bytesAt data (start + i * 4) 4) = l.map fun a => u32ToBeBytes (f a) :=
    map_bytesAt_table (fun a _ => u32ToBeBytes_length (f a)) before behind hstart hdata
  have hword := congrArg (List.map fromBeBytes) h
  simpa only [List.map_map, Function.comp_def, fromBeBytes_u32, wordAt] using hword

theorem offsetsAt_ok {data : Bytes} {offsetsStart offsetsEnd : Nat} {is : List Nat}
    (h : ∀ i ∈ is, wordAt data (offsetsStart + i * 4) < 2 ^ 31) :
    offsetsAt data offsetsStart offsetsEnd is = .ok (is.map fun i => wordAt data (offsetsStart + i * 4)) := by
  induction is with
  | nil => rfl
  | cons i is ih =>
    rw [offsetsAt, offsetAt, if_pos (h i List.mem_cons_self), ih fun j hj => h j (List.mem_cons_of_mem _ hj)]
    rfl

/-- An index is read as what it lists. -/
theorem parse_idxBytes (packName : Str) (entries : List ObjectEntry) (packSha idxSha : Bytes)
    (hoids : ∀ e ∈ entries, e.oidBytes.length = 20) (hoffsets : ∀ e ∈ entries, e.packOffset < 2 ^ 31)
    (hlen : entries.length < 2 ^ 32) (hpackSha : packSha.length = 20) (hidxSha : idxSha.length = 20) :
    PackIndex.parse packName (idxBytes entries packSha ++ idxSha) =
      .ok (PackIndex.ofEntries packName entries packSha) := by
  generalize hdata : idxBytes entries packSha ++ idxSha = data
  let header : Bytes := [0xFF, 0x74, 0x4F, 0x63] ++ u32ToBeBytes 2
  let fan := (fanoutTable entries).flatMap u32ToBeBytes
  let shas := entries.flatMap (·.oidBytes)
  let crcs := entries.flatMap fun e => u32ToBeBytes e.crc32
  let offsets := entries.flatMap fun e => u32ToBeBytes (UInt32.ofNat e.packOffset)
  have hall : data = header ++ fan ++ shas ++ crcs ++ offsets ++ packSha ++ idxSha := hdata.symm
  have hheader : header.length = 8 := rfl
  have hfanlen : (fanoutTable entries).length = 256 := by simp [fanoutTable]
  have hfan : fan.length = 1024 := by
    have h : fan.length = (fanoutTable entries).length * 4 :=
      flatMap_length_of_width fun x _ => u32ToBeBytes_length x
    rw [h, hfanlen]
  have hshas : shas.length = entries.length * 20 := flatMap_length_of_width hoids
  have hcrcs : crcs.length = entries.length * 4 :=
    flatMap_length_of_width fun e _ => u32ToBeBytes_length e.crc32
  have hoffs : offsets.length = entries.length * 4 :=
    flatMap_length_of_width fun e _ => u32ToBeBytes_length (UInt32.ofNat e.packOffset)
  have hdatalen : data.length = 1032 + entries.length * 20 + entries.length * 4 + entries.length * 4 + 40 := by
    rw [hall]
    simp only [List.length_append, hheader, hfan, hshas, hcrcs, hoffs, hpackSha, hidxSha]
  -- the tables one after the other
  have hmagic : bytesAt data 0 4 = [0xFF, 0x74, 0x4F, 0x63] := by rw [hall]; rfl
  have hversion : wordAt data 4 = 2 := by rw [hall]; rfl
  have hfanout : (List.range 256).map (fun i => wordAt data (8 + i * 4)) = fanoutOf entries := by
    have h : (List.range (fanoutTable entries).length).map (fun i => wordAt data (8 + i * 4)) =
        (fanoutTable entries).map fun x => x.toNat :=
      map_wordAt_table header (shas ++ crcs ++ offsets ++ packSha ++ idxSha) hheader.symm
        (by rw [hall]; simp only [fan, List.append_assoc])
    rw [hfanlen] at h
    rw [h, fanoutTable, List.map_map, fanoutOf]
    refine List.map_congr_left fun i _ => ?_
    exact UInt32.toNat_ofNat_of_lt' (Nat.lt_of_le_of_lt List.countP_le_length hlen)
  have hcount : (fanoutOf entries).getD 255 0 = entries.length := by
    rw [fanoutOf_getD entries (by decide), List.countP_eq_length]
    exact fun e _ => decide_eq_true (Nat.le_of_lt_succ (e.oidBytes.headD 0).toNat_lt)
  have hoids' : (List.range entries.length).map (fun i => bytesAt data (8 + 1024 + i * 20) 20) =
      entries.map (·.oidBytes) :=
    map_bytesAt_table hoids (header ++ fan) (crcs ++ offsets ++ packSha ++ idxSha)
      (by rw [List.length_append, hheader, hfan]) (by rw [hall]; simp only [shas, List.append_assoc])
  have hwords : (List.range entries.length).map
      (fun i => wordAt data (8 + 1024 + entries.length * 20 + entries.length * 4 + i * 4)) =
      entries.map (·.packOffset) := by
    have h : (List.range entries.length).map
        (fun i => wordAt data (8 + 1024 + entries.length * 20 + entries.length * 4 + i * 4)) =
        entries.map fun e => (UInt32.ofNat e.packOffset).toNat :=
      map_wordAt_table (header ++ fan ++ shas ++ crcs) (packSha ++ idxSha)
        (by simp only [List.length_append, hheader, hfan, hshas, hcrcs])
        (hall.trans (by simp only [offsets, List.append_assoc]))
    rw [h]
    refine List.map_congr_left fun e he => UInt32.toNat_ofNat_of_lt' ?_
    exact Nat.lt_of_lt_of_le (hoffsets e he) (by decide)
  have hsmall : ∀ i ∈ List.range entries.length,
      wordAt data (8 + 1024 + entries.length * 20 + entries.length * 4 + i * 4) < 2 ^ 31 := by
    intro i hi
    have hmem := List.mem_map_of_mem (f := fun i =>
      wordAt data (8 + 1024 + entries.length * 20 + entries.length * 4 + i * 4)) hi
    rw [hwords] at hmem
    obtain ⟨e, he, heq⟩ := List.mem_map.mp hmem
    rw [← heq]
    exact hoffsets e he
  have hsha : bytesAt data (data.length - 40) 20 = packSha := by
    have hbefore : (header ++ fan ++ shas ++ crcs ++ offsets).length = data.length - 40 := by
      simp only [List.length_append, hheader, hfan, hshas, hcrcs, hoffs]
      omega
    rw [bytesAt, ← hbefore, hall, List.append_assoc _ packSha, List.drop_left, List.take_left' hpackSha]
  unfold PackIndex.parse
  rw [if_neg (by omega), if_neg (by rw [hmagic]; simp), if_neg (by rw [hversion]; simp)]
  simp only [hfanout, hcount]
  rw [if_neg (by omega), offsetsAt_ok hsmall, hwords]
  simp only [hoids', hsha]
  rfl

/-! ## Looking up a name -/

/-- What an index finds is among its names. -/
theorem PackIndex.findOffset_mem {index : PackIndex} {sha : Bytes} {r : Nat × Nat}
    (h : index.findOffset sha = some r) : sha ∈ index.shas := by
  unfold PackIndex.findOffset at h
  simp only at h
  generalize (if (sha.headD 0).toNat = 0 then 0 else index.fanout.getD ((sha.headD 0).toNat - 1) 0) = low at h
  split at h
  · exact absurd h (by simp)
  · split at h
    · exact absurd h (by simp)
    · rename_i pos hpos
      obtain ⟨found, hfound, heq⟩ := Search.binarySearch_some hpos
      obtain rfl := (compareBytes_eq_iff _ _).mp heq
      exact List.mem_of_mem_drop (List.mem_of_mem_take (List.mem_of_getElem? hfound))

/-- An index lists its entries by their names, each name once. -/
structure Indexed (entries : List ObjectEntry) : Prop where
  sorted : entries.Pairwise fun a b => (compareBytes a.oidBytes b.oidBytes).isLE
  nodup : (entries.map (·.oidBytes)).Nodup
  oids : ∀ e ∈ entries, e.oidBytes.length = 20

namespace Indexed

variable {entries : List ObjectEntry}

theorem firstByte (h : Indexed entries) : entries.Pairwise fun a b => a.firstByte ≤ b.firstByte := by
  refine List.Pairwise.imp_of_mem (fun {a b} ha _ hab => firstByte_le ?_ hab) h.sorted
  intro hnil
  have := h.oids a ha
  rw [hnil] at this
  exact absurd this (by decide)

theorem sortedFor (h : Indexed entries) (sha : Bytes) (low n : Nat) :
    Search.SortedFor (compareBytes · sha) (((entries.map (·.oidBytes)).drop low).take n) := by
  have hsub : (((entries.map (·.oidBytes)).drop low).take n).Pairwise fun a b => (compareBytes a b).isLE :=
    (List.pairwise_map.mpr h.sorted).sublist ((List.take_sublist _ _).trans (List.drop_sublist _ _))
  constructor
  · refine hsub.imp fun {a b} hab hgt => ?_
    by_contra hb
    have hle : (compareBytes b sha).isLE := by cases hc : compareBytes b sha <;> simp_all
    have := compareBytes_trans hab hle
    rw [hgt] at this
    exact absurd this (by decide)
  · refine hsub.imp fun {a b} hab hlt => ?_
    by_contra ha
    have hle : (compareBytes sha a).isLE := by
      rw [compareBytes_swap a sha]
      cases hc : compareBytes a sha <;> simp_all
    have := compareBytes_trans hle hab
    rw [compareBytes_swap b sha, hlt] at this
    exact absurd this (by decide)

/-- The two counts of the fanout table that a first byte looks up bound where its names are. -/
theorem bounds (h : Indexed entries) {i : Nat} (hi : i < entries.length) :
    let b := entries[i].firstByte
    (if b = 0 then 0 else (fanoutOf entries).getD (b - 1) 0) ≤ i ∧ i < (fanoutOf entries).getD b 0 := by
  intro b
  have hb : b < 256 := (entries[i].oidBytes.headD 0).toNat_lt
  rw [fanoutOf_getD entries hb]
  refine ⟨?_, (Search.getElem_le_iff h.firstByte b i hi).mp (Nat.le_refl _)⟩
  split_ifs with h0
  · exact Nat.zero_le _
  · rw [fanoutOf_getD entries (by omega)]
    by_contra hlt
    have := (Search.getElem_le_iff h.firstByte (b - 1) i hi).mpr (Nat.not_le.mp hlt)
    omega

theorem findOffset_some (h : Indexed entries) (packName : Str) (packSha : Bytes) {e : ObjectEntry}
    (he : e ∈ entries) :
    (PackIndex.ofEntries packName entries packSha).findOffset e.oidBytes =
      some (e.packOffset, ((PackIndex.ofEntries packName entries packSha).getObjectLenAtOffset
        e.packOffset).getD (64 * 1024)) := by
  obtain ⟨i, hi, rfl⟩ := List.mem_iff_getElem.mp he
  obtain ⟨hlow, hhigh⟩ := h.bounds hi
  have hshas : (PackIndex.ofEntries packName entries packSha).shas = entries.map (·.oidBytes) := rfl
  have hfan : (PackIndex.ofEntries packName entries packSha).fanout = fanoutOf entries := rfl
  have hb : (entries[i].oidBytes.headD 0).toNat = entries[i].firstByte := rfl
  have hmax : (fanoutOf entries).getD entries[i].firstByte 0 ≤ (entries.map (·.oidBytes)).length := by
    have hlt : entries[i].firstByte < 256 := (entries[i].oidBytes.headD 0).toNat_lt
    rw [fanoutOf_getD entries hlt, List.length_map]
    exact List.countP_le_length
  unfold PackIndex.findOffset
  simp only [hshas, hfan, hb]
  generalize (if entries[i].firstByte = 0 then 0 else (fanoutOf entries).getD (entries[i].firstByte - 1) 0) =
    low at *
  generalize (fanoutOf entries).getD entries[i].firstByte 0 = high at *
  rw [if_neg (by omega)]
  have hget (pos : Nat) (hpos : pos < high - low) :
      (((entries.map (·.oidBytes)).drop low).take (high - low))[pos]? = (entries.map (·.oidBytes))[low + pos]? := by
    rw [List.getElem?_take_of_lt hpos, List.getElem?_drop]
  have hmem : entries[i].oidBytes ∈ ((entries.map (·.oidBytes)).drop low).take (high - low) := by
    refine List.mem_of_getElem? (i := i - low) ?_
    rw [hget _ (by omega), Nat.add_sub_cancel' hlow, List.getElem?_map, List.getElem?_eq_getElem hi]
    rfl
  obtain ⟨pos, hpos⟩ := Option.isSome_iff_exists.mp
    (Search.binarySearch_isSome (h.sortedFor entries[i].oidBytes low (high - low)) hmem
      ((compareBytes_eq_iff _ _).mpr rfl))
  obtain ⟨sha, hsha, heq⟩ := Search.binarySearch_some hpos
  obtain rfl := (compareBytes_eq_iff _ _).mp heq
  obtain ⟨hposlt, -⟩ := List.getElem?_eq_some_iff.mp hsha
  rw [List.length_take] at hposlt
  rw [hget pos (by omega)] at hsha
  have hplace : low + pos = i := by
    refine (List.getElem?_inj (List.getElem?_eq_some_iff.mp hsha).1 h.nodup).mp (hsha.trans ?_)
    rw [List.getElem?_map, List.getElem?_eq_getElem hi]
    rfl
  have hoffset : (PackIndex.ofEntries packName entries packSha).offsets.getD (low + pos) 0 =
      entries[i].packOffset := by
    rw [hplace, PackIndex.ofEntries, List.getD_eq_getElem?_getD, List.getElem?_map, List.getElem?_eq_getElem hi]
    rfl
  simp only [hpos, hoffset]

theorem findOffset_none (packName : Str) (packSha : Bytes) {sha : Bytes}
    (hnone : ∀ e ∈ entries, e.oidBytes ≠ sha) :
    (PackIndex.ofEntries packName entries packSha).findOffset sha = none := by
  cases hfind : (PackIndex.ofEntries packName entries packSha).findOffset sha with
  | none => rfl
  | some r =>
    obtain ⟨e, he, heq⟩ := List.mem_map.mp (PackIndex.findOffset_mem hfind)
    exact absurd heq (hnone e he)

end Indexed

/-! ## An index that was written -/

theorem length_le_records (zlib : Bytes → Bytes) (objects : List GitObjectToPack) :
    objects.length ≤ (objects.flatMap (packRecord zlib)).length := by
  induction objects with
  | nil => exact Nat.zero_le _
  | cons obj objs ih =>
    have := zlib_length_lt zlib obj
    rw [List.flatMap_cons, List.length_append, List.length_cons]
    omega

/-- Every object takes a byte of the pack, so offsets that fit the table bound how many there are. -/
theorem entriesFrom_length_lt {zlib : Bytes → Bytes} {objects : List GitObjectToPack} {pos : Nat}
    (hoffsets : ∀ e ∈ entriesFrom zlib pos objects, e.packOffset < 2 ^ 31) : objects.length ≤ 2 ^ 31 := by
  by_contra hlong
  have hlast : objects.length - 1 < objects.length := by omega
  have hget := entriesFrom_getElem? zlib objects pos (objects.length - 1)
  rw [List.getElem?_eq_getElem hlast, Option.map_some] at hget
  have hlt := hoffsets _ (List.mem_of_getElem? hget)
  have hle := length_le_records zlib (objects.take (objects.length - 1))
  rw [List.length_take, Nat.min_eq_left (by omega)] at hle
  simp only at hlt
  omega

theorem indexed_sortBy {entries : List ObjectEntry} (hnodup : (entries.map (·.oidBytes)).Nodup)
    (hoids : ∀ e ∈ entries, e.oidBytes.length = 20) :
    Indexed (sortBy (fun a b => compareBytes a.oidBytes b.oidBytes) entries) := by
  have hperm := sortBy_perm (fun a b : ObjectEntry => compareBytes a.oidBytes b.oidBytes) entries
  exact ⟨sortBy_pairwise (·.oidBytes) entries, (hperm.map _).nodup_iff.mpr hnodup,
    fun e he => hoids e (hperm.mem_iff.mp he)⟩

/-- An index that was written is read back, and finds every object of its pack where it starts and
nothing else. -/
theorem index_exact (zlib : Bytes → Bytes) (objects : List GitObjectToPack) (packName : Str)
    (pack idx : Bytes) (sha : Str)
    (hoids : ∀ obj ∈ objects, obj.oidBytes.length = 20) (hnodup : (objects.map (·.oidBytes)).Nodup)
    (hpack : createPackAndIndexBytes zlib objects = .ok (pack, idx, sha)) :
    ∃ index, PackIndex.parse packName idx = .ok index ∧
      index.packShaHex = sha ∧ sha = hexEncode (pack.drop (pack.length - 20)) ∧
      (∀ before obj behind, objects = before ++ obj :: behind →
        ∃ rest len, pack = packHeader objects.length ++ before.flatMap (packRecord zlib) ++
            packRecord zlib obj ++ rest ∧
          index.findOffset obj.oidBytes =
            some ((packHeader objects.length ++ before.flatMap (packRecord zlib)).length, len)) ∧
      ∀ k, (∀ obj ∈ objects, obj.oidBytes ≠ k) → index.findOffset k = none := by
  obtain ⟨entries, packSha, hdata, hidx, rfl⟩ := createPackAndIndexBytes_ok hpack
  obtain ⟨hbytes, hshalen, rfl⟩ := createPackData_bytes hdata
  obtain ⟨hoffsets, rfl⟩ := createIdxV2Data_ok hidx
  have hnames := entriesFrom_oids zlib objects 12
  have hentry (e : ObjectEntry) (he : e ∈ entriesFrom zlib 12 objects) : ∃ obj ∈ objects, obj.oidBytes = e.oidBytes :=
    List.mem_map.mp (hnames ▸ List.mem_map_of_mem he)
  have hperm := List.perm_insertionSort (fun a b : ObjectEntry => (compareBytes a.oidBytes b.oidBytes).isLE)
    (entriesFrom zlib 12 objects)
  have hindexed := indexed_sortBy (hnames ▸ hnodup) fun e he => by
    obtain ⟨obj, hobj, heq⟩ := hentry e he
    exact heq ▸ hoids obj hobj
  have hlen : objects.length ≤ 2 ^ 31 := entriesFrom_length_lt fun e he => hoffsets e (hperm.mem_iff.mpr he)
  have hcount : (sortBy (fun a b => compareBytes a.oidBytes b.oidBytes) (entriesFrom zlib 12 objects)).length =
      objects.length := by
    have := congrArg List.length hnames
    rw [List.length_map, List.length_map] at this
    rw [← this]
    exact hperm.length_eq
  refine ⟨_, parse_idxBytes packName _ packSha _ hindexed.oids hoffsets (by rw [hcount]; omega) hshalen
    (sha1_length _), rfl, ?_, ?_, ?_⟩
  · have hplace : pack.length - 20 =
        (packHeader objects.length ++ objects.flatMap (packRecord zlib)).length := by
      rw [hbytes, List.length_append, hshalen, Nat.add_sub_cancel]
    rw [hplace, hbytes, List.drop_left]
  · rintro before obj behind rfl
    have hget := entriesFrom_getElem? zlib (before ++ obj :: behind) 12 before.length
    rw [List.getElem?_append_right (Nat.le_refl _), Nat.sub_self, List.getElem?_cons_zero, Option.map_some,
      List.take_left] at hget
    have hfind := hindexed.findOffset_some packName packSha (hperm.mem_iff.mpr (List.mem_of_getElem? hget))
    have hplace : (packHeader (before ++ obj :: behind).length ++ before.flatMap (packRecord zlib)).length =
        12 + (before.flatMap (packRecord zlib)).length := by
      rw [List.length_append, packHeader_length]
    rw [hplace]
    refine ⟨behind.flatMap (packRecord zlib) ++ packSha, _, ?_, hfind⟩
    rw [hbytes, List.flatMap_append, List.flatMap_cons]
    simp only [List.append_assoc]
  · intro k hk
    refine Indexed.findOffset_none packName packSha fun e he heq => ?_
    obtain ⟨obj, hobj, hsame⟩ := hentry e (hperm.mem_iff.mp he)
    exact hk obj hobj (hsame.trans heq)

/-- Names with the first bytes 0x00, 0x12 and 0xff, two of them in one bucket. -/
def spreadObjects : List GitObjectToPack :=
  [⟨hexEncode (0x12 :: List.replicate 19 7), .blob, [1]⟩, ⟨hexEncode (List.replicate 20 0xff), .blob, []⟩,
    ⟨hexEncode (List.replicate 20 0), .tree, []⟩, ⟨hexEncode (0x12 :: List.replicate 19 5), .blob, [2]⟩]

theorem index_exact_spread : ∃ pack idx sha index,
    createPackAndIndexBytes zlibStored spreadObjects = .ok (pack, idx, sha) ∧
      PackIndex.parse [] idx = .ok index ∧ index.findOffset (List.replicate 20 1) = none := by
  have hpack : (createPackAndIndexBytes zlibStored spreadObjects).toOption.isSome = true := by decide +kernel
  cases hcreate : createPackAndIndexBytes zlibStored spreadObjects with
  | error e =>
    rw [hcreate] at hpack
    exact absurd hpack (by simp [Except.toOption])
  | ok made =>
    obtain ⟨index, hparse, -, -, -, hnone⟩ := index_exact zlibStored spreadObjects [] made.1 made.2.1 made.2.2
      (by decide +kernel) (by decide +kernel) hcreate
    exact ⟨made.1, made.2.1, made.2.2, index, rfl, hparse, hnone _ (by decide +kernel)⟩

end GitNfs
