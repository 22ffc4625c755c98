import GitNfs.Git.CommitMessage
import GitNfs.Zlib

/-! # Packs and their indexes

`zlib` is the compressor of `flate2`: the whole stream it makes of a payload.
-/

namespace GitNfs

structure ObjectEntry where
  oidBytes : Bytes
  packOffset : Nat
  crc32 : UInt32
  deriving DecidableEq, Repr

/-- The size of an object past its lowest four bits, in `fuel` bytes at most. -/
def sizeBytes : Nat → Nat → Bytes
  | 0, _ => []
  | fuel + 1, size =>
    if size = 0 then []
    else
      let more := size / 128
      UInt8.ofNat (size % 128 + if more = 0 then 0 else 128) :: sizeBytes fuel more

def packObjectHeader (t : ObjectType) (size : Nat) : Bytes :=
  let more := size / 16
  UInt8.ofNat (t.toU8.toNat * 16 + size % 16 + if more = 0 then 0 else 128) :: sizeBytes more more

def packObjects (zlib : Bytes → Bytes) :
    List GitObjectToPack → Bytes → List ObjectEntry → Except Error (Bytes × List ObjectEntry)
  | [], pack, entries => .ok (pack, entries)
  | obj :: objs, pack, entries =>
    let data := packObjectHeader obj.objType obj.data.length ++ zlib obj.data
    match hexDecode obj.oid with
    | none => .error (.invalidHex obj.oid)
    | some oidBytes => packObjects zlib objs (pack ++ data) (entries ++ [⟨oidBytes, pack.length, crc32 data⟩])

def createPackData (zlib : Bytes → Bytes) (objects : List GitObjectToPack) :
    Except Error (Bytes × List ObjectEntry × Bytes) :=
  let header := asBytes "PACK".toList ++ u32ToBeBytes 2 ++ u32ToBeBytes (UInt32.ofNat objects.length)
  match packObjects zlib objects header [] with
  | .error e => .error e
  | .ok (pack, entries) => .ok (pack ++ sha1 pack, entries, sha1 pack)

/-- How many entries have a first byte up to each of the 256. -/
def fanoutTable (entries : List ObjectEntry) : List UInt32 :=
  (List.range 256).map fun i =>
    UInt32.ofNat (entries.countP fun e => (e.oidBytes.headD 0).toNat ≤ i)

def createIdxV2Data (entries : List ObjectEntry) (packSha : Bytes) : Except Error Bytes :=
  let entries := sortBy (fun a b => compareBytes a.oidBytes b.oidBytes) entries
  if entries.any fun e => 0x7fffffff < e.packOffset then .error .largePackOffset
  else
    let idx := [0xFF, 0x74, 0x4F, 0x63] ++ u32ToBeBytes 2 ++
      (fanoutTable entries).flatMap u32ToBeBytes ++
      entries.flatMap (·.oidBytes) ++
      entries.flatMap (fun e => u32ToBeBytes e.crc32) ++
      entries.flatMap (fun e => u32ToBeBytes (UInt32.ofNat e.packOffset)) ++
      packSha
    .ok (idx ++ sha1 idx)

/-- The pack, its index, and the SHA that names them. -/
def createPackAndIndexBytes (zlib : Bytes → Bytes) (objects : List GitObjectToPack) :
    Except Error (Bytes × Bytes × Str) :=
  match createPackData zlib objects with
  | .error e => .error e
  | .ok (packData, entries, packSha) =>
    match createIdxV2Data entries packSha with
    | .error e => .error e
    | .ok idxData => .ok (packData, idxData, hexEncode packSha)

/-! ## What is written -/

/-- The bytes of one object in a pack. -/
def packRecord (zlib : Bytes → Bytes) (obj : GitObjectToPack) : Bytes :=
  packObjectHeader obj.objType obj.data.length ++ zlib obj.data

theorem zlib_length_lt (zlib : Bytes → Bytes) (obj : GitObjectToPack) :
    (zlib obj.data).length < (packRecord zlib obj).length := by
  simp only [packRecord, packObjectHeader, List.length_append, List.length_cons]
  omega

def GitObjectToPack.oidBytes (obj : GitObjectToPack) : Bytes := (hexDecode obj.oid).getD []

/-- What the index says of the objects, where the first of them is at `pos`. -/
def entriesFrom (zlib : Bytes → Bytes) : Nat → List GitObjectToPack → List ObjectEntry
  | _, [] => []
  | pos, obj :: objs =>
    ⟨obj.oidBytes, pos, crc32 (packRecord zlib obj)⟩ :: entriesFrom zlib (pos + (packRecord zlib obj).length) objs

theorem packObjects_bytes {zlib : Bytes → Bytes} {objects : List GitObjectToPack} {pack pack' : Bytes}
    {entries entries' : List ObjectEntry} (h : packObjects zlib objects pack entries = .ok (pack', entries')) :
    pack' = pack ++ objects.flatMap (packRecord zlib) ∧
      entries' = entries ++ entriesFrom zlib pack.length objects := by
  induction objects generalizing pack entries with
  | nil =>
    simp only [packObjects, Except.ok.injEq, Prod.mk.injEq] at h
    simp only [List.flatMap_nil, entriesFrom, List.append_nil]
    exact ⟨h.1.symm, h.2.symm⟩
  | cons obj objs ih =>
    unfold packObjects at h
    cases hhex : hexDecode obj.oid with
    | none =>
      rw [hhex] at h
      exact absurd h (by simp)
    | some oidBytes =>
      rw [hhex] at h
      have hoid : obj.oidBytes = oidBytes := by rw [GitObjectToPack.oidBytes, hhex, Option.getD_some]
      obtain ⟨hpack, hentries⟩ := ih h
      rw [List.append_assoc] at hpack hentries
      rw [hpack, hentries, entriesFrom, List.flatMap_cons, hoid, List.length_append]
      exact ⟨rfl, rfl⟩

theorem entriesFrom_getElem? (zlib : Bytes → Bytes) (objects : List GitObjectToPack) (pos i : Nat) :
    (entriesFrom zlib pos objects)[i]? = objects[i]?.map fun obj =>
      ⟨obj.oidBytes, pos + ((objects.take i).flatMap (packRecord zlib)).length, crc32 (packRecord zlib obj)⟩ := by
  induction objects generalizing pos i with
  | nil => rfl
  | cons obj objs ih =>
    cases i with
    | zero => simp [entriesFrom]
    | succ i =>
      rw [entriesFrom, List.getElem?_cons_succ, ih, List.getElem?_cons_succ, List.take_succ_cons,
        List.flatMap_cons, List.length_append, Nat.add_assoc]

theorem entriesFrom_oids (zlib : Bytes → Bytes) (objects : List GitObjectToPack) (pos : Nat) :
    (entriesFrom zlib pos objects).map (·.oidBytes) = objects.map (·.oidBytes) := by
  induction objects generalizing pos with
  | nil => rfl
  | cons obj objs ih => rw [entriesFrom, List.map_cons, ih, List.map_cons]

/-- The twelve bytes that a pack of `n` objects starts with. -/
def packHeader (n : Nat) : Bytes :=
  asBytes "PACK".toList ++ u32ToBeBytes 2 ++ u32ToBeBytes (UInt32.ofNat n)

theorem packHeader_length (n : Nat) : (packHeader n).length = 12 := by
  have hmagic : (asBytes "PACK".toList).length = 4 := by decide
  rw [packHeader, List.length_append, List.length_append, hmagic, u32ToBeBytes_length, u32ToBeBytes_length]

theorem createPackData_bytes {zlib : Bytes → Bytes} {objects : List GitObjectToPack} {pack sha : Bytes}
    {entries : List ObjectEntry} (h : createPackData zlib objects = .ok (pack, entries, sha)) :
    pack = packHeader objects.length ++ objects.flatMap (packRecord zlib) ++ sha ∧ sha.length = 20 ∧
      entries = entriesFrom zlib 12 objects := by
  unfold createPackData at h
  simp only at h
  split at h
  · exact absurd h (by simp)
  · rename_i pack' entries' hpack
    simp only [Except.ok.injEq, Prod.mk.injEq] at h
    obtain ⟨rfl, rfl, rfl⟩ := h
    obtain ⟨hbytes, hentries⟩ := packObjects_bytes hpack
    refine ⟨?_, sha1_length _, ?_⟩
    · exact congrArg (· ++ sha1 pack') hbytes
    · rw [hentries, List.nil_append]
      exact congrArg (entriesFrom zlib · objects) (packHeader_length objects.length)

theorem createPackAndIndexBytes_ok {zlib : Bytes → Bytes} {objects : List GitObjectToPack} {pack idx : Bytes}
    {shaHex : Str} (h : createPackAndIndexBytes zlib objects = .ok (pack, idx, shaHex)) :
    ∃ entries sha, createPackData zlib objects = .ok (pack, entries, sha) ∧
      createIdxV2Data entries sha = .ok idx ∧ shaHex = hexEncode sha := by
  unfold createPackAndIndexBytes at h
  split at h
  · exact absurd h (by simp)
  · rename_i pack' entries sha hdata
    split at h
    · exact absurd h (by simp)
    · rename_i idx' hidx
      simp only [Except.ok.injEq, Prod.mk.injEq] at h
      obtain ⟨rfl, rfl, rfl⟩ := h
      exact ⟨entries, sha, hdata, hidx, rfl⟩

end GitNfs
