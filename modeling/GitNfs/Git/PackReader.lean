import GitNfs.Cache.Block
import GitNfs.Git.Delta
import GitNfs.Git.PackObjects
import GitNfs.Git.PackIndex

/-! # Reading one object of a pack

The objects of a repository in a bucket are read on demand, from a window of the pack that the index sizes.
-/

namespace GitNfs

inductive ReadError where
  | pack (e : PackError)
  | fetch
  | emptyRead
  | invalidHex (oid : Str)
  | invalidLength
  | notFound (oid : Str)
  | inflate
  | missingNull (oid : Str)
  | looseType (header : Str)
  deriving DecidableEq, Repr

/-- What `GcsGitStorage` reads objects with. `fetch` reads a range of an object of the bucket. -/
structure PackReader where
  packIndexes : List PackIndex
  objectCache : Str → Option GitRawObject
  blockCache : BlockCache
  fetch : Str → Nat → Nat → Option Bytes
  readFullObject : Str → Option Bytes

namespace PackReader

def getPackObjectLen (s : PackReader) (packName : Str) (offset : Nat) : Option Nat :=
  match s.packIndexes.find? (·.packName = packName) with
  | none => none
  | some index => index.getObjectLenAtOffset offset

def readPackSlice (s : PackReader) (packName : Str) (offset readLen : Nat) : Option Bytes :=
  s.blockCache.readRange (s.fetch packName) packName offset readLen

/-- The first index that has the object. -/
def packMatch (s : PackReader) (sha : Bytes) : Option (Str × Nat × Nat) :=
  s.packIndexes.findSome? fun index =>
    (index.findOffset sha).map fun (offset, len) => (index.packName, offset, len)

def looseType (header : Str) : Except ReadError ObjectType :=
  if "commit ".toList.isPrefixOf header then .ok .commit
  else if "tree ".toList.isPrefixOf header then .ok .tree
  else if "blob ".toList.isPrefixOf header then .ok .blob
  else if "tag ".toList.isPrefixOf header then .ok .tag
  else .error (.looseType header)

def readLoose (inflate : Bytes → Option (Bytes × Nat)) (s : PackReader) (oid : Str) :
    Except ReadError GitRawObject :=
  match s.readFullObject ("objects/".toList ++ oid.take 2 ++ '/' :: oid.drop 2) with
  | none => .error (.notFound oid)
  | some compressed =>
    match inflate compressed with
    | none => .error .inflate
    | some (decompressed, _) =>
      if 0 ∈ decompressed then
        match looseType (fromUtf8Lossy (decompressed.takeWhile (· ≠ 0))) with
        | .error e => .error e
        | .ok t => .ok ⟨t, (decompressed.dropWhile (· ≠ 0)).drop 1⟩
      else .error (.missingNull oid)

/-- `read_object_raw`, with what it reads a pack object with. -/
def readObjectWith (inflate : Bytes → Option (Bytes × Nat)) (s : PackReader)
    (read : Str → Nat → Nat → Option (Except ReadError GitRawObject)) (oid : Str) :
    Option (Except ReadError GitRawObject) :=
  match s.objectCache oid with
  | some obj => some (.ok obj)
  | none =>
    match hexDecode oid with
    | none => some (.error (.invalidHex oid))
    | some sha =>
      if sha.length ≠ 20 then some (.error .invalidLength)
      else
        match s.packMatch sha with
        | some (packName, offset, len) => read packName offset len
        | none => some (s.readLoose inflate oid)

/-- What a delta makes of its base, if that could be read. -/
def applyToBase (delta : Bytes) :
    Option (Except ReadError GitRawObject) → Option (Except ReadError GitRawObject)
  | none => none
  | some (.error e) => some (.error e)
  | some (.ok base) =>
    match applyGitDelta base.data delta with
    | .error e => some (.error (.pack e))
    | .ok resolved => some (.ok ⟨base.objType, resolved⟩)

def readLen (estimatedLen : Nat) : Nat := max (estimatedLen + 64) 4096

/-- `fuel` bounds how deep the chain of bases is followed. Nothing else does. -/
def readPackObject (inflate : Bytes → Option (Bytes × Nat)) (s : PackReader) :
    Nat → Str → Nat → Nat → Option (Except ReadError GitRawObject)
  | 0, _, _, _ => none
  | fuel + 1, packName, offset, estimatedLen =>
    match s.readPackSlice packName offset (readLen estimatedLen) with
    | none => some (.error .fetch)
    | some packSlice =>
      if packSlice = [] then some (.error .emptyRead)
      else
        match readRecord inflate offset packSlice with
        | .error e => some (.error (.pack e))
        | .ok (record, _) =>
          match record.source with
          | .object t => some (.ok ⟨t, record.data⟩)
          | .delta (.offset base) =>
            let baseLen := (s.getPackObjectLen packName base).getD record.size
            applyToBase record.data (readPackObject inflate s fuel packName base baseLen)
          | .delta (.sha base) =>
            applyToBase record.data (s.readObjectWith inflate (readPackObject inflate s fuel) base)

/-- What is resolved is put into the object cache, where the calls that follow find it. -/
def readObjectRaw (inflate : Bytes → Option (Bytes × Nat)) (s : PackReader) (fuel : Nat) (oid : Str) :
    Option (Except ReadError GitRawObject) :=
  s.readObjectWith inflate (s.readPackObject inflate fuel) oid

end PackReader

/-! ## What a window shows of a record -/

/-- What the readers rely on of a decompressor: it looks at nothing behind the stream, and of a stream that
is cut it makes no more than a proper beginning of the content. -/
structure Inflates (inflate : Bytes → Option (Bytes × Nat)) : Prop where
  consumed : ∀ s data n, inflate s = some (data, n) → n ≤ s.length
  stable : ∀ s data n k, inflate s = some (data, n) → n ≤ k → inflate (s.take k) = some (data, n)
  cut : ∀ s data n k, inflate s = some (data, n) → k < n → ∀ data' n', inflate (s.take k) = some (data', n') →
    ∃ z, z ≠ [] ∧ data = data' ++ z

variable {inflate : Bytes → Option (Bytes × Nat)}

theorem readRecord_take (hinflate : Inflates inflate) {objOffset used k : Nat} {s : Bytes} {record : Record}
    (h : readRecord inflate objOffset s = .ok (record, used)) (hk : used ≤ k) :
    readRecord inflate objOffset (s.take k) = .ok (record, used) := by
  obtain ⟨t, rest, stream, n, hheader, hsource, hdata, hused, -⟩ := readRecord_parts h
  have hle₁ := readObjectHeader_reads.length_le hheader
  have hle₂ := (readSource_reads objOffset t).length_le hsource
  have hheader' := readObjectHeader_reads.take hheader (k := k) (by omega)
  have hsource' := (readSource_reads objOffset t).take hsource (k := k - (s.length - rest.length)) (by omega)
  have hdata' := hinflate.stable stream record.data n
    (k - (s.length - rest.length) - (rest.length - stream.length)) hdata (by omega)
  rw [readRecord, hheader']
  simp only [hsource', hdata']
  congr 2
  rw [List.length_take, List.length_take]
  omega

/-- A window that ends before the record does shows at most a proper beginning of its data. -/
theorem readRecord_cut (hinflate : Inflates inflate) {objOffset used used' k : Nat} {s : Bytes}
    {record record' : Record} (h : readRecord inflate objOffset s = .ok (record, used)) (hk : k < used)
    (h' : readRecord inflate objOffset (s.take k) = .ok (record', used')) :
    record'.source = record.source ∧ ∃ z, z ≠ [] ∧ record.data = record'.data ++ z := by
  obtain ⟨t, rest, stream, n, hheader, hsource, hdata, hused, -⟩ := readRecord_parts h
  obtain ⟨t', rest', stream', n', hheader', hsource', hdata', -, -⟩ := readRecord_parts h'
  have hwhole := readObjectHeader_reads.of_take hheader'
  rw [hheader] at hwhole
  obtain ⟨hsame, hrest⟩ := Prod.mk.inj (Except.ok.inj hwhole)
  obtain ⟨rfl, -⟩ := Prod.mk.inj hsame
  have hwhole := (readSource_reads objOffset t).append hsource' (s.drop k)
  rw [← hrest, hsource] at hwhole
  obtain ⟨hsource'', hstream⟩ := Prod.mk.inj (Except.ok.inj hwhole)
  refine ⟨hsource''.symm, ?_⟩
  have hstream' : stream' = stream.take stream'.length := by rw [hstream, List.take_left]
  rw [hstream'] at hdata'
  refine hinflate.cut stream record.data n stream'.length hdata ?_ _ _ hdata'
  have hlen := congrArg List.length hstream
  rw [List.length_append, List.length_drop] at hlen
  have hle₁ := readObjectHeader_reads.length_le hheader
  have hle₂ := (readSource_reads objOffset t).length_le hsource
  have hn := hinflate.consumed stream record.data n hdata
  omega

/-! ## An index of the pack -/

/-- The index has every object of the pack, under its name and where it is. -/
structure Lists (entries : List ObjectEntry) (records : List Placed) : Prop where
  indexed : Indexed entries
  offsets : (entries.map (·.packOffset)).Perm (records.map (·.offset))
  named : ∀ e ∈ entries, ∀ obj, ObjectAt records e.packOffset obj → hexEncode e.oidBytes = obj.oid

/-- The last object of the pack is not longer than the window that the index estimates for it. -/
def LastFits (records : List Placed) : Prop :=
  ∀ p, records.getLast? = some p → p.used ≤ 64 * 1024 + 64

section Index

variable {entries : List ObjectEntry} {records : List Placed} {pos : Nat}

theorem Lists.sortedOffsets (h : Lists entries records) (hlaid : Laid pos records) (packName : Str) (packSha : Bytes) :
    (PackIndex.ofEntries packName entries packSha).sortedOffsets = records.map (·.offset) := by
  have hsorted : (records.map (·.offset)).Pairwise (· ≤ ·) :=
    List.pairwise_map.mpr (hlaid.sorted.imp fun hlt => Nat.le_of_lt hlt)
  exact ((List.perm_insertionSort _ _).trans h.offsets).eq_of_pairwise
    (fun a b _ _ hab hba => Nat.le_antisymm hab hba) (List.pairwise_insertionSort _ _) hsorted

/-- From a record to the next is the length of the record. -/
theorem Lists.objectLen (h : Lists entries records) (hlaid : Laid pos records) (packName : Str) (packSha : Bytes)
    {i : Nat} {p : Placed} (hp : records[i]? = some p) :
    (PackIndex.ofEntries packName entries packSha).getObjectLenAtOffset p.offset =
      if i + 1 < records.length then some p.used else none := by
  obtain ⟨hi, rfl⟩ := List.getElem?_eq_some_iff.mp hp
  have hsorted : Search.SortedFor (compare · records[i].offset) (records.map (·.offset)) := by
    have hpair : (records.map (·.offset)).Pairwise (· < ·) := List.pairwise_map.mpr hlaid.sorted
    constructor
    · refine hpair.imp fun {a b} hab hgt => ?_
      rw [Nat.compare_eq_gt] at hgt ⊢
      omega
    · refine hpair.imp fun {a b} hab hlt => ?_
      rw [Nat.compare_eq_lt] at hlt ⊢
      omega
  obtain ⟨j, hj⟩ := Option.isSome_iff_exists.mp (Search.binarySearch_isSome hsorted
    (List.mem_map_of_mem (List.getElem_mem hi)) (Nat.compare_eq_eq.mpr rfl))
  obtain ⟨o, ho, heq⟩ := Search.binarySearch_some hj
  rw [Nat.compare_eq_eq] at heq
  have hnodup : (records.map (·.offset)).Nodup :=
    List.pairwise_map.mpr (hlaid.sorted.imp fun hlt => Nat.ne_of_lt hlt)
  have hplace : j = i := by
    refine (List.getElem?_inj (List.getElem?_eq_some_iff.mp ho).1 hnodup).mp ?_
    rw [ho, heq, List.getElem?_map, List.getElem?_eq_getElem hi]
    rfl
  unfold PackIndex.getObjectLenAtOffset
  rw [h.sortedOffsets hlaid, hj, hplace]
  simp only [List.getElem?_map]
  split_ifs with hnext
  · rw [List.getElem?_eq_getElem hnext]
    have := hlaid.next hp (List.getElem?_eq_getElem hnext)
    simp only [Option.map_some, Option.some.injEq]
    omega
  · rw [List.getElem?_eq_none (by omega)]
    rfl

/-- One name, one place. -/
theorem Lists.place_unique (h : Lists entries records) {o o' : Nat} {obj obj' : GitRawObject}
    (hobj : ObjectAt records o obj) (hobj' : ObjectAt records o' obj') (hoid : obj.oid = obj'.oid) : o = o' := by
  have hentry {o : Nat} {obj : GitRawObject} (hobj : ObjectAt records o obj) :
      ∃ e ∈ entries, e.packOffset = o ∧ hexEncode e.oidBytes = obj.oid := by
    obtain ⟨p, hp, rfl⟩ := hobj.placed
    obtain ⟨e, he, heq⟩ := List.mem_map.mp (h.offsets.mem_iff.mpr (List.mem_map_of_mem hp))
    exact ⟨e, he, heq, h.named e he obj (heq ▸ hobj)⟩
  obtain ⟨e, he, rfl, hname⟩ := hentry hobj
  obtain ⟨e', he', rfl, hname'⟩ := hentry hobj'
  have hbytes : e.oidBytes = e'.oidBytes := hexEncode_injective (hname.trans (hoid.trans hname'.symm))
  rw [List.inj_on_of_nodup_map h.indexed.nodup he he' hbytes]

/-- One place, one object. -/
theorem Lists.object_unique (h : Lists entries records) (hlaid : Laid pos records) {o : Nat} {obj : GitRawObject}
    (hobj : ObjectAt records o obj) : ∀ obj', ObjectAt records o obj' → obj = obj' := by
  induction hobj with
  | @object p t hp hsource =>
    intro obj' hobj'
    generalize ho : p.offset = o at hobj'
    cases hobj' with
    | object hp' hsource' =>
      obtain rfl := hlaid.offset_inj hp hp' ho
      rw [hsource] at hsource'
      cases hsource'
      rfl
    | offset hp' hsource' _ _ =>
      obtain rfl := hlaid.offset_inj hp hp' ho
      exact absurd (hsource.symm.trans hsource') (by simp)
    | sha hp' hsource' _ _ =>
      obtain rfl := hlaid.offset_inj hp hp' ho
      exact absurd (hsource.symm.trans hsource') (by simp)
  | @offset p b base data hp hsource hbase hdata ih =>
    intro obj' hobj'
    generalize ho : p.offset = o at hobj'
    cases hobj' with
    | object hp' hsource' =>
      obtain rfl := hlaid.offset_inj hp hp' ho
      exact absurd (hsource.symm.trans hsource') (by simp)
    | offset hp' hsource' hbase' hdata' =>
      obtain rfl := hlaid.offset_inj hp hp' ho
      rw [hsource] at hsource'
      cases hsource'
      obtain rfl := ih _ hbase'
      rw [hdata] at hdata'
      rw [Except.ok.inj hdata']
    | sha hp' hsource' _ _ =>
      obtain rfl := hlaid.offset_inj hp hp' ho
      exact absurd (hsource.symm.trans hsource') (by simp)
  | @sha p b base data hp hsource hbase hdata ih =>
    intro obj' hobj'
    generalize ho : p.offset = o at hobj'
    cases hobj' with
    | object hp' hsource' =>
      obtain rfl := hlaid.offset_inj hp hp' ho
      exact absurd (hsource.symm.trans hsource') (by simp)
    | offset hp' hsource' _ _ =>
      obtain rfl := hlaid.offset_inj hp hp' ho
      exact absurd (hsource.symm.trans hsource') (by simp)
    | @sha _ b' base' data' hp' hsource' hbase' hdata' =>
      obtain rfl := hlaid.offset_inj hp hp' ho
      rw [hsource] at hsource'
      have hoid : base.oid = base'.oid := by simpa using hsource'
      obtain rfl := h.place_unique hbase hbase' hoid
      obtain rfl := ih _ hbase'
      rw [hdata] at hdata'
      rw [Except.ok.inj hdata']

/-- No object is a delta of itself. -/
theorem ObjectAt.not_self (hlaid : Laid pos records) {o : Nat} {obj : GitRawObject}
    (hobj : ObjectAt records o obj) :
    ∀ p ∈ records, p.offset = o → p.record.source ≠ .delta (.offset o) := by
  induction hobj with
  | @object p t hp hsource =>
    intro q hq hqo
    obtain rfl := hlaid.offset_inj hp hq hqo.symm
    rw [hsource]
    simp
  | @offset p b base data hp hsource hbase hdata ih =>
    intro q hq hqo hself
    obtain rfl := hlaid.offset_inj hp hq hqo.symm
    rw [hsource] at hself
    obtain rfl : b = p.offset := by simpa using hself
    exact ih p hp rfl hsource
  | @sha p b base data hp hsource hbase hdata ih =>
    intro q hq hqo
    obtain rfl := hlaid.offset_inj hp hq hqo.symm
    rw [hsource]
    simp

end Index

theorem readSource_offset_le {objOffset b : Nat} {t : ObjectType} {s stream : Bytes}
    (h : readSource objOffset t s = .ok (.delta (.offset b), stream)) : b ≤ objOffset := by
  cases t with
  | ofsDelta =>
    simp only [readSource] at h
    split at h
    · exact absurd h (by simp)
    · rename_i back rest hback
      split_ifs at h
      have hb : objOffset - back = b := by simpa using (Prod.mk.inj (Except.ok.inj h)).1
      omega
  | refDelta =>
    simp only [readSource] at h
    split_ifs at h
    exact absurd (Prod.mk.inj (Except.ok.inj h)).1 (by simp)
  | _ => exact absurd (Prod.mk.inj (Except.ok.inj h)).1 (by simp)

/-! ## Both readers -/

namespace PackReader

/-- The reader has the index of the pack and no other, and its blocks are those of the pack. -/
structure Serves (s : PackReader) (packName : Str) (entries : List ObjectEntry) (packSha pack : Bytes) : Prop where
  index : s.packIndexes = [PackIndex.ofEntries packName entries packSha]
  blocks : s.blockCache.Exact (s.fetch packName) packName pack

section Agree

variable {s : PackReader} {packName : Str} {entries : List ObjectEntry} {packSha pack : Bytes}
  {records : List Placed} {pos n : Nat}

theorem Serves.getPackObjectLen (hs : s.Serves packName entries packSha pack) (offset : Nat) :
    s.getPackObjectLen packName offset =
      (PackIndex.ofEntries packName entries packSha).getObjectLenAtOffset offset := by
  have hname : (PackIndex.ofEntries packName entries packSha).packName = packName := rfl
  rw [PackReader.getPackObjectLen, hs.index, List.find?_cons_of_pos (by simp [hname])]

/-- A name leads to the place of its object. -/
theorem Serves.readObjectWith (inflate : Bytes → Option (Bytes × Nat)) (hs : s.Serves packName entries packSha pack) (hlists : Lists entries records)
    {o : Nat} {obj : GitRawObject} (hobj : ObjectAt records o obj) (hcold : s.objectCache obj.oid = none)
    (read : Str → Nat → Nat → Option (Except ReadError GitRawObject)) :
    s.readObjectWith inflate read obj.oid = read packName o
      (((PackIndex.ofEntries packName entries packSha).getObjectLenAtOffset o).getD (64 * 1024)) := by
  obtain ⟨p, hp, rfl⟩ := hobj.placed
  obtain ⟨e, he, heq⟩ := List.mem_map.mp (hlists.offsets.mem_iff.mpr (List.mem_map_of_mem hp))
  have hname := hlists.named e he obj (heq ▸ hobj)
  have hfind := hlists.indexed.findOffset_some packName packSha he
  have hmatch : s.packMatch e.oidBytes = some (packName, p.offset,
      ((PackIndex.ofEntries packName entries packSha).getObjectLenAtOffset p.offset).getD (64 * 1024)) := by
    rw [packMatch, hs.index, List.findSome?_cons, hfind, heq]
    rfl
  unfold PackReader.readObjectWith
  rw [hcold, ← hname, hexDecode_hexEncode]
  simp only
  rw [if_neg (by rw [hlists.indexed.oids e he]; simp), hmatch]

/-- A window that holds a whole record shows it. -/
theorem Serves.readPackObject (hs : s.Serves packName entries packSha pack) (hinflate : Inflates inflate)
    (hrecords : packRecords inflate pack n pos = .ok records) {p : Placed} (hp : p ∈ records) {est : Nat}
    (hest : p.used ≤ readLen est) (fuel : Nat) :
    s.readPackObject inflate (fuel + 1) packName p.offset est =
      match p.record.source with
      | .object t => some (.ok ⟨t, p.record.data⟩)
      | .delta (.offset base) => applyToBase p.record.data
          (s.readPackObject inflate fuel packName base ((s.getPackObjectLen packName base).getD p.record.size))
      | .delta (.sha base) => applyToBase p.record.data
          (s.readObjectWith inflate (s.readPackObject inflate fuel) base) := by
  have hread := readRecord_take hinflate (packRecords_spec hrecords p hp) hest
  have hne : (pack.drop p.offset).take (readLen est) ≠ [] := by
    intro hnil
    rw [hnil, readRecord] at hread
    exact absurd hread (by simp [readObjectHeader])
  rw [PackReader.readPackObject, readPackSlice, hs.blocks.readRange]
  simp only [if_neg hne, hread]

/-- The window that an index gives a record holds the record. -/
theorem window_fits (packName : Str) (packSha : Bytes) (hlists : Lists entries records) (hlaid : Laid pos records) (hlast : LastFits records)
    {p : Placed} (hp : p ∈ records) :
    p.used ≤ readLen (((PackIndex.ofEntries packName entries packSha).getObjectLenAtOffset p.offset).getD
      (64 * 1024)) := by
  obtain ⟨i, hi⟩ := List.mem_iff_getElem?.mp hp
  rw [hlists.objectLen hlaid packName packSha hi, readLen]
  split_ifs with hnext
  · simp only [Option.getD_some]
    omega
  · have hlen := (List.getElem?_eq_some_iff.mp hi).1
    have hget : records.getLast? = some p := by
      rw [List.getLast?_eq_getElem?, ← hi]
      congr 1
      omega
    have := hlast p hget
    simp only [Option.getD_none]
    omega

/-- The record that a delta names by its distance has another one behind it, so its length is known. -/
theorem base_window (packName : Str) (packSha : Bytes) (hlists : Lists entries records) (hlaid : Laid pos records)
    (hrecords : packRecords inflate pack n pos = .ok records) {p q : Placed} (hp : p ∈ records) (hq : q ∈ records)
    (hsource : p.record.source = .delta (.offset q.offset)) (hne : q.offset ≠ p.offset) (size : Nat) :
    q.used ≤ readLen (((PackIndex.ofEntries packName entries packSha).getObjectLenAtOffset q.offset).getD size) := by
  obtain ⟨t, rest, stream, k, -, hread, -, -, -⟩ := readRecord_parts (packRecords_spec hrecords p hp)
  rw [hsource] at hread
  have hle := readSource_offset_le hread
  obtain ⟨i, hi⟩ := List.mem_iff_getElem?.mp hp
  obtain ⟨j, hj⟩ := List.mem_iff_getElem?.mp hq
  obtain ⟨hilt, rfl⟩ := List.getElem?_eq_some_iff.mp hi
  obtain ⟨hjlt, rfl⟩ := List.getElem?_eq_some_iff.mp hj
  have hnext : j + 1 < records.length := by
    by_contra hend
    rcases Nat.lt_or_ge i j with hij | hij
    · have := List.pairwise_iff_getElem.mp hlaid.sorted i j hilt hjlt hij
      omega
    · have hsame : i = j := by omega
      subst hsame
      exact hne rfl
  rw [hlists.objectLen hlaid packName packSha hj, if_pos hnext, readLen, Option.getD_some]
  omega

/-- Every object is read as what it is, from any window that holds its record. -/
theorem Serves.reads (hs : s.Serves packName entries packSha pack) (hinflate : Inflates inflate)
    (hrecords : packRecords inflate pack n pos = .ok records) (hlists : Lists entries records)
    (hlast : LastFits records)
    (hcache : ∀ oid obj, s.objectCache oid = some obj → obj.oid = oid ∧ ∃ o, ObjectAt records o obj)
    {o : Nat} {obj : GitRawObject} (hobj : ObjectAt records o obj) :
    ∀ p ∈ records, p.offset = o → ∀ est, p.used ≤ readLen est →
      ∃ fuel, s.readPackObject inflate fuel packName o est = some (.ok obj) := by
  have hlaid := packRecords_laid hrecords
  induction hobj with
  | @object p t hp hsource =>
    intro q hq hqo est hest
    obtain rfl := hlaid.offset_inj hp hq hqo.symm
    refine ⟨1, ?_⟩
    rw [hs.readPackObject hinflate hrecords hp hest, hsource]
  | @offset p b base data hp hsource hbase hdata ih =>
    intro q hq hqo est hest
    obtain rfl := hlaid.offset_inj hp hq hqo.symm
    obtain ⟨r, hr, rfl⟩ := hbase.placed
    have hne : r.offset ≠ p.offset := fun heq =>
      (ObjectAt.offset hp hsource hbase hdata).not_self hlaid p hp rfl (heq ▸ hsource)
    obtain ⟨fuel, hfuel⟩ := ih r hr rfl ((s.getPackObjectLen packName r.offset).getD p.record.size) (by
      rw [hs.getPackObjectLen]
      exact base_window packName packSha hlists hlaid hrecords hp hr hsource hne _)
    refine ⟨fuel + 1, ?_⟩
    rw [hs.readPackObject hinflate hrecords hp hest, hsource]
    simp only [hfuel, applyToBase, hdata]
  | @sha p b base data hp hsource hbase hdata ih =>
    intro q hq hqo est hest
    obtain rfl := hlaid.offset_inj hp hq hqo.symm
    cases hcached : s.objectCache base.oid with
    | some obj' =>
      obtain ⟨hoid, o', hobj'⟩ := hcache _ _ hcached
      obtain rfl := hlists.place_unique hbase hobj' hoid.symm
      obtain rfl := hlists.object_unique hlaid hbase _ hobj'
      refine ⟨1, ?_⟩
      rw [hs.readPackObject hinflate hrecords hp hest, hsource]
      simp only [PackReader.readObjectWith, hcached, applyToBase, hdata]
    | none =>
      obtain ⟨r, hr, rfl⟩ := hbase.placed
      obtain ⟨fuel, hfuel⟩ := ih r hr rfl _ (window_fits packName packSha hlists hlaid hlast hr)
      refine ⟨fuel + 1, ?_⟩
      rw [hs.readPackObject hinflate hrecords hp hest, hsource]
      simp only [hs.readObjectWith inflate hlists hbase hcached, hfuel, applyToBase, hdata]

/-- A window that ends before a record does never shows the object. -/
theorem Serves.misses (hs : s.Serves packName entries packSha pack) (hinflate : Inflates inflate)
    (hrecords : packRecords inflate pack n pos = .ok records)
    {p : Placed} {obj : GitRawObject} (hobj : ObjectAt records p.offset obj) (hp : p ∈ records) {est : Nat}
    (hest : readLen est < p.used) (fuel : Nat) :
    s.readPackObject inflate fuel packName p.offset est ≠ some (.ok obj) := by
  have hlaid := packRecords_laid hrecords
  have hread := packRecords_spec hrecords p hp
  cases fuel with
  | zero => simp [PackReader.readPackObject]
  | succ fuel =>
    rw [PackReader.readPackObject, readPackSlice, hs.blocks.readRange]
    simp only
    split_ifs
    · simp
    split
    · simp
    · rename_i record used hcut
      obtain ⟨hsame, z, hz, hdata⟩ := readRecord_cut hinflate hread hest hcut
      -- a delta that is cut can be applied to nothing
      have hdelta (base : GitRawObject) (data : Bytes) (happly : applyGitDelta base.data p.record.data = .ok data)
          (r : Option (Except ReadError GitRawObject)) : applyToBase record.data r ≠ some (.ok obj) := by
        intro heq
        cases r with
        | none => exact absurd heq (by simp [applyToBase])
        | some r =>
          cases r with
          | error e => exact absurd heq (by simp [applyToBase])
          | ok base' =>
            rw [applyToBase] at heq
            split at heq
            · exact absurd heq (by simp)
            · rename_i resolved hresolved
              rw [hdata] at happly
              exact hz (applyGitDelta_cut happly hresolved)
      rw [hsame]
      generalize ho : p.offset = o at hobj
      cases hobj with
      | object hp' hsource =>
        obtain rfl := hlaid.offset_inj hp hp' ho
        rw [hsource]
        simp only [ne_eq, Option.some.injEq, Except.ok.injEq, GitRawObject.mk.injEq, true_and]
        intro heq
        rw [← heq] at hdata
        exact hz (List.self_eq_append_right.mp hdata)
      | @offset _ _ base _ hp' hsource _ happly =>
        obtain rfl := hlaid.offset_inj hp hp' ho
        rw [hsource]
        exact hdelta base _ happly _
      | @sha _ _ base _ hp' hsource _ happly =>
        obtain rfl := hlaid.offset_inj hp hp' ho
        rw [hsource]
        exact hdelta base _ happly _

end Agree

end PackReader

/-- The objects of a pack are read on demand as they are unpacked if the last of them fits into the window
that is estimated for it, and of a reader that has nothing in its cache only if it does. -/
theorem reader_agrees (inflate : Bytes → Option (Bytes × Nat)) (hinflate : Inflates inflate)
    (pack : Bytes) (m : Str → Option GitRawObject) (hunpack : unpackPackfile inflate pack = .ok m)
    (records : List Placed)
    (hrecords : packRecords inflate pack (fromBeBytes ((pack.drop 8).take 4)) 12 = .ok records)
    (entries : List ObjectEntry) (hlists : Lists entries records)
    (s : PackReader) (packName : Str) (packSha : Bytes) (hs : s.Serves packName entries packSha pack)
    (hcache : ∀ oid obj, s.objectCache oid = some obj → m oid = some obj) :
    (LastFits records →
      ∀ oid obj, m oid = some obj → ∃ fuel, s.readObjectRaw inflate fuel oid = some (.ok obj)) ∧
    ((∀ oid, s.objectCache oid = none) →
      (∀ oid obj, m oid = some obj → ∃ fuel, s.readObjectRaw inflate fuel oid = some (.ok obj)) →
      LastFits records) := by
  obtain ⟨records', hrecords', hsound, hall⟩ := unpackPackfile_sound hunpack
  rw [hrecords] at hrecords'
  obtain rfl := Except.ok.inj hrecords'
  have hlaid := packRecords_laid hrecords
  constructor
  · intro hlast oid obj hobj
    obtain ⟨rfl, o, hat⟩ := hsound oid obj hobj
    cases hcached : s.objectCache obj.oid with
    | some obj' =>
      have hsame := hcache _ _ hcached
      rw [hobj] at hsame
      obtain rfl := Option.some.inj hsame
      exact ⟨0, by rw [PackReader.readObjectRaw, PackReader.readObjectWith, hcached]⟩
    | none =>
      obtain ⟨p, hp, rfl⟩ := hat.placed
      obtain ⟨fuel, hfuel⟩ := hs.reads hinflate hrecords hlists hlast
        (fun oid obj h => hsound oid obj (hcache oid obj h)) hat p hp rfl _
        (PackReader.window_fits packName packSha hlists hlaid hlast hp)
      exact ⟨fuel, by rw [PackReader.readObjectRaw, hs.readObjectWith inflate hlists hat hcached, hfuel]⟩
  · intro hcold hreads p hlastp
    have hp : p ∈ records := List.mem_of_getLast? hlastp
    obtain ⟨obj, hat, hsome⟩ := hall p hp
    obtain ⟨obj', hobj'⟩ := Option.isSome_iff_exists.mp hsome
    obtain ⟨hoid, o', hat'⟩ := hsound _ _ hobj'
    obtain rfl := hlists.place_unique hat' hat hoid
    obtain rfl := hlists.object_unique hlaid hat' _ hat
    obtain ⟨fuel, hfuel⟩ := hreads _ _ hobj'
    rw [PackReader.readObjectRaw, hs.readObjectWith inflate hlists hat (hcold _)] at hfuel
    by_contra hlong
    refine hs.misses hinflate hrecords hat hp ?_ fuel hfuel
    have hget : records[records.length - 1]? = some p := by rw [← List.getLast?_eq_getElem?, hlastp]
    have hlen := (List.getElem?_eq_some_iff.mp hget).1
    rw [hlists.objectLen hlaid packName packSha hget, if_neg (by omega), PackReader.readLen, Option.getD_none]
    omega

/-! ## A pack of one object -/

theorem inflates_stored : Inflates inflateStored where
  consumed := by
    intro s data n h
    obtain ⟨front, behind, rfl, rfl, -⟩ := inflateStored_front h
    rw [List.length_append]
    exact Nat.le_add_right _ _
  stable := by
    intro s data n k h hk
    obtain ⟨front, behind, rfl, rfl, hall⟩ := inflateStored_front h
    rw [List.take_append, List.take_of_length_le hk]
    exact hall _
  cut := by
    intro s data n k h hk data' n' h'
    obtain ⟨front, behind, hfront, rfl, hall⟩ := inflateStored_front h'
    have hsame := hall (behind ++ s.drop k)
    rw [← List.append_assoc, ← hfront, List.take_append_drop, h] at hsame
    obtain ⟨-, rfl⟩ := Prod.mk.inj (Option.some.inj hsame)
    have hlen := congrArg List.length hfront
    rw [List.length_take, List.length_append] at hlen
    omega

/-- The pack of a blob, its object in the index, and a reader of it that has fetched nothing yet. -/
def blobPack (zlib : Bytes → Bytes) (data : Bytes) : Bytes :=
  packHeader 1 ++ packRecord zlib ⟨computeGitSha1 .blob data, .blob, data⟩ ++
    sha1 (packHeader 1 ++ packRecord zlib ⟨computeGitSha1 .blob data, .blob, data⟩)

def blobEntry (data : Bytes) : ObjectEntry := ⟨sha1 (objectHeader .blob data.length ++ data), 12, 0⟩

def blobReader (zlib : Bytes → Bytes) (data : Bytes) : PackReader where
  packIndexes := [PackIndex.ofEntries [] [blobEntry data] []]
  objectCache := fun _ => none
  blockCache := ⟨10 * 1024 * 1024, fun _ => none, fun _ _ => none⟩
  fetch := fun _ offset len => some (((blobPack zlib data).drop offset).take len)
  readFullObject := fun _ => none

theorem blobReader_serves (zlib : Bytes → Bytes) (data : Bytes) :
    (blobReader zlib data).Serves [] [blobEntry data] [] (blobPack zlib data) where
  index := rfl
  blocks := ⟨by show 0 < 10 * 1024 * 1024; decide, fun _ h => absurd h (by simp [blobReader]), fun _ _ h => absurd h (by simp [blobReader]),
    fun _ _ => rfl⟩

theorem blobPack_holds {zlib : Bytes → Bytes} (inflate : Bytes → Option (Bytes × Nat)) (data : Bytes)
    (hzlib : ∀ rest, inflate (zlib data ++ rest) = some (data, (zlib data).length)) :
    ∃ size m, unpackPackfile inflate (blobPack zlib data) = .ok m ∧
      m (computeGitSha1 .blob data) = some ⟨.blob, data⟩ ∧
      let record : Placed := ⟨12, ⟨.object .blob, size, data⟩,
        (packRecord zlib ⟨computeGitSha1 .blob data, .blob, data⟩).length⟩
      packRecords inflate (blobPack zlib data) (fromBeBytes (((blobPack zlib data).drop 8).take 4)) 12 =
        .ok [record] ∧ Lists [blobEntry data] [record] := by
  let obj : GitObjectToPack := ⟨computeGitSha1 .blob data, .blob, data⟩
  have hplain : obj.objType.Plain := .inr (.inr (.inl rfl))
  obtain ⟨size, hread, -⟩ := readRecord_pack zlib inflate obj hplain hzlib 12
    (sha1 (packHeader 1 ++ packRecord zlib obj))
  have hunpack := unpackPackfile_pack zlib inflate [obj] (by show 1 < 2 ^ 32; decide)
    (sha1 (packHeader 1 ++ packRecord zlib obj)) (by simpa using hplain) (by simpa using hzlib)
  rw [List.flatMap_singleton] at hunpack
  have hcount := (packHeader_fields (n := 1) (by decide)
    (packRecord zlib obj ++ sha1 (packHeader 1 ++ packRecord zlib obj))).2.2
  rw [← List.append_assoc] at hcount
  have hdrop : (blobPack zlib data).drop 12 =
      packRecord zlib obj ++ sha1 (packHeader 1 ++ packRecord zlib obj) := by
    rw [blobPack, List.append_assoc, List.drop_left' (packHeader_length 1)]
  refine ⟨size, _, hunpack, ?_, ?_, ?_⟩
  · rw [List.foldl_cons, List.foldl_nil, Function.update_self]
    rfl
  · rw [show fromBeBytes (((blobPack zlib data).drop 8).take 4) = 1 from hcount, packRecords, hdrop, hread]
    rfl
  · refine ⟨⟨List.pairwise_singleton _ _, List.nodup_singleton _, ?_⟩, List.Perm.refl _, ?_⟩
    · intro e he
      obtain rfl := List.mem_singleton.mp he
      exact sha1_length _
    · intro e he obj' hobj'
      obtain rfl := List.mem_singleton.mp he
      generalize (blobEntry data).packOffset = o at hobj'
      cases hobj' with
      | object hp hsource =>
        obtain rfl := List.mem_singleton.mp hp
        cases hsource
        rfl
      | offset hp hsource _ _ =>
        obtain rfl := List.mem_singleton.mp hp
        exact absurd hsource (by simp)
      | sha hp hsource _ _ =>
        obtain rfl := List.mem_singleton.mp hp
        exact absurd hsource (by simp)

theorem reader_agrees_small : ∃ fuel,
    (blobReader zlibStored [104, 105]).readObjectRaw inflateStored fuel (computeGitSha1 .blob [104, 105]) =
      some (.ok ⟨.blob, [104, 105]⟩) := by
  obtain ⟨size, m, hunpack, hm, hrecords, hlists⟩ := blobPack_holds inflateStored [104, 105]
    fun rest => inflateStored_zlibStored _ rest (by decide)
  refine (reader_agrees inflateStored inflates_stored _ m hunpack _ hrecords _ hlists _ [] []
    (blobReader_serves _ _) (fun _ _ h => absurd h (by simp [blobReader]))).1 ?_ _ _ hm
  intro p hp
  obtain rfl := Option.some.inj hp
  show (packRecord zlibStored ⟨computeGitSha1 .blob [104, 105], .blob, [104, 105]⟩).length ≤ 64 * 1024 + 64
  decide +kernel

/-- A blob that is longer than the window of 65600 bytes that is read for it, the only object of its pack. -/
theorem blob_missed (data : Bytes) (hlong : 65600 ≤ data.length) (hlen : data.length < 2 ^ 17 - 1) :
    ∃ pack m records entries, unpackPackfile inflateStored pack = .ok m ∧
      packRecords inflateStored pack (fromBeBytes ((pack.drop 8).take 4)) 12 = .ok records ∧
      Lists entries records ∧
      ∃ s : PackReader, s.Serves [] entries [] pack ∧ (∀ oid, s.objectCache oid = none) ∧
        ∃ oid obj, m oid = some obj ∧ ∀ fuel, s.readObjectRaw inflateStored fuel oid ≠ some (.ok obj) := by
  obtain ⟨size, m, hunpack, hm, hrecords, hlists⟩ := blobPack_holds inflateStored data
    fun rest => inflateStored_zlibTwice _ rest hlen
  refine ⟨_, m, _, _, hunpack, hrecords, hlists, _, blobReader_serves zlibTwice data, fun _ => rfl, _, _, hm,
    fun fuel => ?_⟩
  generalize hrecord : (⟨12, ⟨.object .blob, size, data⟩,
    (packRecord zlibTwice ⟨computeGitSha1 .blob data, .blob, data⟩).length⟩ : Placed) = record at *
  have hmem : record ∈ [record] := List.mem_singleton.mpr rfl
  have hat : ObjectAt [record] record.offset ⟨.blob, data⟩ := by
    have h := ObjectAt.object (t := .blob) hmem (by rw [← hrecord])
    rwa [show record.record.data = data by rw [← hrecord]] at h
  have hused : 65600 < record.used := by
    have hlt : (zlibTwice data).length < _ := zlib_length_lt zlibTwice ⟨computeGitSha1 .blob data, .blob, data⟩
    rw [zlibTwice_length] at hlt
    rw [← hrecord]
    simp only
    omega
  have hlaid := packRecords_laid hrecords
  have hserves := blobReader_serves zlibTwice data
  have hplace := hserves.readObjectWith inflateStored hlists hat rfl
  rw [hlists.objectLen (i := 0) hlaid [] [] rfl, if_neg (by simp)] at hplace
  rw [PackReader.readObjectRaw]
  exact hplace _ ▸ hserves.misses inflates_stored hrecords hat hmem
    (by rw [PackReader.readLen, Option.getD_none]; omega) fuel

/-- 65635 bytes, in blocks that are not compressed. -/
theorem reader_misses_long :
    ∃ pack m records entries, unpackPackfile inflateStored pack = .ok m ∧
      packRecords inflateStored pack (fromBeBytes ((pack.drop 8).take 4)) 12 = .ok records ∧
      Lists entries records ∧
      ∃ s : PackReader, s.Serves [] entries [] pack ∧ (∀ oid, s.objectCache oid = none) ∧
        ∃ oid obj, m oid = some obj ∧ ∀ fuel, s.readObjectRaw inflateStored fuel oid ≠ some (.ok obj) :=
  blob_missed (List.replicate 65635 7) (by rw [List.length_replicate]; decide) (by rw [List.length_replicate]; decide)

end GitNfs
