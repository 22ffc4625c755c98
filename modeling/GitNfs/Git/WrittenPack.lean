import GitNfs.Git.ManyPacks

/-! # A pack that was written, through its index

What the pack writer makes of a list of objects is a pack that a reader can work with, if the last object is not
too long.
-/

namespace GitNfs

/-- The record of an object in a pack. -/
structure RecordOf (zlib : Bytes → Bytes) (obj : GitObjectToPack) (p : Placed) : Prop where
  source : p.record.source = .object obj.objType
  data : p.record.data = obj.data
  used : p.used = (packRecord zlib obj).length

/-- What goes into a pack: objects of the four types under the ids of their contents, each id once. -/
structure Packable (objects : List GitObjectToPack) : Prop where
  plain : ∀ obj ∈ objects, obj.objType.Plain
  named : ∀ obj ∈ objects, obj.oid = computeGitSha1 obj.objType obj.data
  nodup : (objects.map GitObjectToPack.oid).Nodup

/-- A decompressor takes back what the compressor made of these objects. -/
def Inverts (zlib : Bytes → Bytes) (inflate : Bytes → Option (Bytes × Nat)) (objects : List GitObjectToPack) : Prop :=
  ∀ obj ∈ objects, ∀ rest, inflate (zlib obj.data ++ rest) = some (obj.data, (zlib obj.data).length)

variable {zlib : Bytes → Bytes} {inflate : Bytes → Option (Bytes × Nat)} {objects : List GitObjectToPack}

/-- The records of a pack that was written are those of the objects, in their order. -/
theorem packRecords_written (hplain : ∀ obj ∈ objects, obj.objType.Plain) (hzlib : Inverts zlib inflate objects)
    (before behind : Bytes) :
    ∃ records, packRecords inflate (before ++ objects.flatMap (packRecord zlib) ++ behind) objects.length
        before.length = .ok records ∧ List.Forall₂ (RecordOf zlib) objects records ∧
      records.map Placed.offset = (entriesFrom zlib before.length objects).map ObjectEntry.packOffset := by
  induction objects generalizing before with
  | nil => exact ⟨[], rfl, .nil, rfl⟩
  | cons obj objs ih =>
    obtain ⟨size, hread, -⟩ := readRecord_pack zlib inflate obj (hplain obj List.mem_cons_self)
      (hzlib obj List.mem_cons_self) before.length (objs.flatMap (packRecord zlib) ++ behind)
    obtain ⟨records, hrest, hrecords, hoffsets⟩ := ih (fun o ho => hplain o (List.mem_cons_of_mem _ ho))
      (fun o ho => hzlib o (List.mem_cons_of_mem _ ho)) (before ++ packRecord zlib obj)
    have hpack : before ++ (obj :: objs).flatMap (packRecord zlib) ++ behind =
        before ++ (packRecord zlib obj ++ (objs.flatMap (packRecord zlib) ++ behind)) := by
      simp only [List.flatMap_cons, List.append_assoc]
    have hpack' : before ++ packRecord zlib obj ++ objs.flatMap (packRecord zlib) ++ behind =
        before ++ (packRecord zlib obj ++ (objs.flatMap (packRecord zlib) ++ behind)) := by
      simp only [List.append_assoc]
    refine ⟨⟨before.length, ⟨.object obj.objType, size, obj.data⟩, (packRecord zlib obj).length⟩ :: records, ?_,
      .cons ⟨rfl, rfl, rfl⟩ hrecords, ?_⟩
    · rw [hpack', List.length_append] at hrest
      rw [hpack, List.length_cons, packRecords, List.drop_left, hread]
      simp only [hrest]
    · rw [List.length_append] at hoffsets
      rw [List.map_cons, hoffsets, entriesFrom, List.map_cons]

theorem Packable.oidBytes (h : Packable objects) {obj : GitObjectToPack} (hobj : obj ∈ objects) :
    hexEncode obj.oidBytes = obj.oid ∧ obj.oidBytes.length = 20 := by
  unfold GitObjectToPack.oidBytes
  rw [h.named obj hobj, computeGitSha1, hexDecode_hexEncode, Option.getD_some]
  exact ⟨rfl, sha1_length _⟩

theorem Packable.oidBytes_nodup (h : Packable objects) : (objects.map GitObjectToPack.oidBytes).Nodup := by
  apply List.Nodup.of_map hexEncode
  rw [List.map_map]
  have hsame : objects.map (hexEncode ∘ GitObjectToPack.oidBytes) = objects.map GitObjectToPack.oid :=
    List.map_congr_left fun obj hobj => (h.oidBytes hobj).1
  rw [hsame]
  exact h.nodup

theorem object_of_entry {e : ObjectEntry} {pos : Nat} (he : e ∈ entriesFrom zlib pos objects) :
    ∃ (i : Nat) (obj : GitObjectToPack), objects[i]? = some obj ∧ e.oidBytes = obj.oidBytes ∧
      (entriesFrom zlib pos objects)[i]? = some e := by
  obtain ⟨i, hi⟩ := List.mem_iff_getElem?.mp he
  have hget := hi
  rw [entriesFrom_getElem?] at hget
  obtain ⟨obj, hobj, rfl⟩ := Option.map_eq_some_iff.mp hget
  exact ⟨i, obj, hobj, rfl, hi⟩

section Records

variable {records : List Placed}

theorem record_of_object (hrecords : List.Forall₂ (RecordOf zlib) objects records) {i : Nat} {obj : GitObjectToPack}
    (hi : objects[i]? = some obj) :
    ∃ p, records[i]? = some p ∧ RecordOf zlib obj p := by
  obtain ⟨hlength, hall⟩ := List.forall₂_iff_get.mp hrecords
  obtain ⟨hlt, rfl⟩ := List.getElem?_eq_some_iff.mp hi
  have hlt' : i < records.length := hlength ▸ hlt
  exact ⟨records[i], List.getElem?_eq_getElem hlt', hall i hlt hlt'⟩

theorem object_of_record (hrecords : List.Forall₂ (RecordOf zlib) objects records) {i : Nat} {p : Placed}
    (hi : records[i]? = some p) :
    ∃ obj, objects[i]? = some obj ∧ RecordOf zlib obj p := by
  obtain ⟨hlength, hall⟩ := List.forall₂_iff_get.mp hrecords
  obtain ⟨hlt, rfl⟩ := List.getElem?_eq_some_iff.mp hi
  have hlt' : i < objects.length := hlength ▸ hlt
  exact ⟨objects[i], List.getElem?_eq_getElem hlt', hall i hlt' hlt⟩

theorem objectAt_of_object (hrecords : List.Forall₂ (RecordOf zlib) objects records) {i : Nat}
    {obj : GitObjectToPack} {p : Placed} (hi : objects[i]? = some obj)
    (hp : records[i]? = some p) : ObjectAt records p.offset obj.raw := by
  obtain ⟨p', hp', hof⟩ := record_of_object hrecords hi
  obtain rfl := Option.some.inj (hp'.symm.trans hp)
  have hobj := ObjectAt.object (List.mem_of_getElem? hp) hof.source
  rw [hof.data] at hobj
  exact hobj

/-- No record is a delta, so an object is the one whose record is at its place. -/
theorem objectAt_written (hrecords : List.Forall₂ (RecordOf zlib) objects records) (hlaid : Laid 12 records) {o : Nat}
    {obj : GitRawObject} (hobj : ObjectAt records o obj) {i : Nat} {p : Placed} (hp : records[i]? = some p)
    (hoffset : p.offset = o) :
    ∃ obj', objects[i]? = some obj' ∧ obj = obj'.raw := by
  obtain ⟨obj', hi, hof⟩ := object_of_record hrecords hp
  refine ⟨obj', hi, ?_⟩
  have hmem := List.mem_of_getElem? hp
  cases hobj with
  | object hq hsource =>
    obtain rfl := hlaid.offset_inj hq hmem hoffset.symm
    rw [hof.source] at hsource
    cases hsource
    rw [hof.data]
    rfl
  | offset hq hsource hbase hdata =>
    obtain rfl := hlaid.offset_inj hq hmem hoffset.symm
    exact absurd (hof.source.symm.trans hsource) (by simp)
  | sha hq hsource hbase hdata =>
    obtain rfl := hlaid.offset_inj hq hmem hoffset.symm
    exact absurd (hof.source.symm.trans hsource) (by simp)

end Records

/-- The last object of a list takes no more room than the window that is estimated for it. -/
def LastShort (zlib : Bytes → Bytes) (objects : List GitObjectToPack) : Prop :=
  ∀ obj, objects.getLast? = some obj → (packRecord zlib obj).length ≤ 64 * 1024 + 64

/-- A pack that was written and its index are read as the objects that went into the pack. -/
theorem Packable.indexed (h : Packable objects) (hzlib : Inverts zlib inflate objects)
    (hlast : LastShort zlib objects) {pack idx : Bytes} {sha : Str}
    (hpack : createPackAndIndexBytes zlib objects = .ok (pack, idx, sha)) (packName : Str) :
    ∃ index entries records, PackIndex.parse packName idx = .ok index ∧ index.packName = packName ∧
      IndexedPack inflate index pack entries records ∧
      ∀ obj, (∃ o, ObjectAt records o obj) ↔ ∃ obj' ∈ objects, obj'.raw = obj := by
  obtain ⟨made, packSha, hdata, hidx, rfl⟩ := createPackAndIndexBytes_ok hpack
  obtain ⟨hbytes, hshalen, rfl⟩ := createPackData_bytes hdata
  obtain ⟨hoffsets, rfl⟩ := createIdxV2Data_ok hidx
  have hperm := List.perm_insertionSort (fun a b : ObjectEntry => (compareBytes a.oidBytes b.oidBytes).isLE)
    (entriesFrom zlib 12 objects)
  have hnames := entriesFrom_oids zlib objects 12
  have hlength20 : ∀ e ∈ entriesFrom zlib 12 objects, e.oidBytes.length = 20 := by
    intro e he
    obtain ⟨i, obj, hobj, heq, -⟩ := object_of_entry he
    rw [heq]
    exact (h.oidBytes (List.mem_of_getElem? hobj)).2
  have hindexed := indexed_sortBy (hnames ▸ h.oidBytes_nodup) hlength20
  have hlen : objects.length ≤ 2 ^ 31 := entriesFrom_length_lt fun e he => hoffsets e (hperm.mem_iff.mpr he)
  have hmade := congrArg List.length hnames
  rw [List.length_map, List.length_map] at hmade
  obtain ⟨records, hread, hrecords, hplaces⟩ := packRecords_written h.plain hzlib (packHeader objects.length) packSha
  rw [packHeader_length] at hread hplaces
  have hplaced : recordsOf inflate pack = .ok records := by
    unfold recordsOf
    rw [hbytes, List.append_assoc, (packHeader_fields (by omega) _).2.2, ← List.append_assoc]
    exact hread
  have hlaid : Laid 12 records := packRecords_laid hplaced
  refine ⟨.ofEntries packName (sortBy (fun a b => compareBytes a.oidBytes b.oidBytes) (entriesFrom zlib 12 objects))
    packSha, _, records, parse_idxBytes packName _ packSha _ hindexed.oids hoffsets ?_ hshalen (sha1_length _), rfl,
    ⟨⟨packSha, rfl⟩, hplaced, ⟨hindexed, ?_, ?_⟩, ?_, ?_⟩, ?_⟩
  · rw [(sortBy_perm _ _).length_eq]
    omega
  · rw [hplaces]
    exact hperm.map _
  · intro e he obj hobj
    obtain ⟨i, obj₀, hi, hbytesEq, hgete⟩ := object_of_entry (hperm.mem_iff.mp he)
    obtain ⟨p, hp, -⟩ := record_of_object hrecords hi
    have hoffset : p.offset = e.packOffset := by
      have hboth := congrArg (·[i]?) hplaces
      simpa [List.getElem?_map, hp, hgete] using hboth
    obtain ⟨obj', hi', rfl⟩ := objectAt_written hrecords hlaid hobj hp hoffset
    obtain rfl := Option.some.inj (hi.symm.trans hi')
    have hmem := List.mem_of_getElem? hi
    rw [hbytesEq, (h.oidBytes hmem).1, h.named _ hmem]
    rfl
  · intro p hp
    rw [List.getLast?_eq_getElem?] at hp
    obtain ⟨obj, hobj, hof⟩ := object_of_record hrecords hp
    rw [hof.used]
    apply hlast
    rw [List.getLast?_eq_getElem?, hrecords.length_eq]
    exact hobj
  · intro p hp
    obtain ⟨i, hi⟩ := List.mem_iff_getElem?.mp hp
    obtain ⟨obj, hobj, -⟩ := object_of_record hrecords hi
    exact ⟨obj.raw, objectAt_of_object hrecords hobj hi⟩
  · intro obj
    constructor
    · rintro ⟨o, hobj⟩
      obtain ⟨p, hp, hoffset⟩ := hobj.placed
      obtain ⟨i, hi⟩ := List.mem_iff_getElem?.mp hp
      obtain ⟨obj', hobj', rfl⟩ := objectAt_written hrecords hlaid hobj hi hoffset
      exact ⟨obj', List.mem_of_getElem? hobj', rfl⟩
    · rintro ⟨obj', hobj', rfl⟩
      obtain ⟨i, hi⟩ := List.mem_iff_getElem?.mp hobj'
      obtain ⟨p, hp, -⟩ := record_of_object hrecords hi
      exact ⟨p.offset, objectAt_of_object hrecords hi hp⟩

end GitNfs
