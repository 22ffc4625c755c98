import GitNfs.Git.PackCut

/-! # Reading through several packs

A repository has any number of packs, and an object may be in several of them. The reader takes the first index
that has it, for the base of a delta as well, which then may come out of another pack.
-/

namespace GitNfs

/-- A pack and an index of it: every object of the pack is listed, every delta has its base in the pack, and the
last object fits into the window that is estimated for it. -/
structure IndexedPack (inflate : Bytes → Option (Bytes × Nat)) (index : PackIndex) (pack : Bytes)
    (entries : List ObjectEntry) (records : List Placed) : Prop where
  listed : ∃ packSha, index = .ofEntries index.packName entries packSha
  placed : recordsOf inflate pack = .ok records
  lists : Lists entries records
  last : LastFits records
  whole : ∀ p ∈ records, ∃ obj, ObjectAt records p.offset obj

variable {inflate : Bytes → Option (Bytes × Nat)} {index : PackIndex} {pack : Bytes}
  {entries : List ObjectEntry} {records : List Placed}

theorem IndexedPack.laid (h : IndexedPack inflate index pack entries records) : Laid 12 records :=
  packRecords_laid h.placed

/-- What an index finds is an object of its pack. -/
theorem IndexedPack.found (h : IndexedPack inflate index pack entries records) {sha : Bytes} {offset len : Nat}
    (hfind : index.findOffset sha = some (offset, len)) :
    sha.length = 20 ∧ len = (index.getObjectLenAtOffset offset).getD (64 * 1024) ∧
      ∃ obj, ObjectAt records offset obj ∧ hexEncode sha = obj.oid := by
  obtain ⟨packSha, hindex⟩ := h.listed
  have hmem := PackIndex.findOffset_mem hfind
  rw [hindex] at hmem hfind
  obtain ⟨e, he, rfl⟩ := List.mem_map.mp hmem
  rw [h.lists.indexed.findOffset_some _ packSha he, Option.some.injEq, Prod.mk.injEq] at hfind
  obtain ⟨rfl, rfl⟩ := hfind
  refine ⟨h.lists.indexed.oids e he, by rw [← hindex], ?_⟩
  obtain ⟨p, hp, hoffset⟩ := List.mem_map.mp (h.lists.offsets.mem_iff.mp (List.mem_map_of_mem he))
  obtain ⟨obj, hobj⟩ := h.whole p hp
  rw [hoffset] at hobj
  exact ⟨obj, hobj, h.lists.named e he obj hobj⟩

/-- An object of the pack is found by its name. -/
theorem IndexedPack.finds (h : IndexedPack inflate index pack entries records) {o : Nat} {obj : GitRawObject}
    (hobj : ObjectAt records o obj) : ∃ sha, hexEncode sha = obj.oid ∧ (index.findOffset sha).isSome := by
  obtain ⟨packSha, hindex⟩ := h.listed
  obtain ⟨p, hp, rfl⟩ := hobj.placed
  obtain ⟨e, he, heq⟩ := List.mem_map.mp (h.lists.offsets.mem_iff.mpr (List.mem_map_of_mem hp))
  refine ⟨e.oidBytes, h.lists.named e he obj (heq ▸ hobj), ?_⟩
  rw [hindex, h.lists.indexed.findOffset_some _ packSha he]
  rfl

namespace PackReader

/-- One of the packs of a reader, whose blocks are those of the pack. -/
structure Shelf (inflate : Bytes → Option (Bytes × Nat)) (content : Str → Option GitRawObject) (s : PackReader)
    (index : PackIndex) (pack : Bytes) (entries : List ObjectEntry) (records : List Placed) : Prop where
  indexed : IndexedPack inflate index pack entries records
  blocks : s.blockCache.Exact (s.fetch index.packName) index.packName pack
  content : ∀ o obj, ObjectAt records o obj → content obj.oid = some obj

/-- All the packs of a reader are packs of one repository. -/
structure ServesAll (inflate : Bytes → Option (Bytes × Nat)) (content : Str → Option GitRawObject) (s : PackReader) :
    Prop where
  packs : ∀ index ∈ s.packIndexes, ∃ pack entries records, s.Shelf inflate content index pack entries records
  names : (s.packIndexes.map PackIndex.packName).Nodup
  cache : ∀ oid obj, s.objectCache oid = some obj → content oid = some obj

variable {content : Str → Option GitRawObject} {s : PackReader}

theorem packMatch_first {k : Nat} {sha : Bytes} (hk : s.packIndexes[k]? = some index)
    (hfinds : (index.findOffset sha).isSome) :
    ∃ j index' offset len, j ≤ k ∧ s.packIndexes[j]? = some index' ∧ index'.findOffset sha = some (offset, len) ∧
      s.packMatch sha = some (index'.packName, offset, len) := by
  have hsome : (s.packMatch sha).isSome := by
    unfold packMatch
    rw [List.findSome?_isSome_iff]
    exact ⟨index, List.mem_of_getElem? hk, by rw [Option.isSome_map]; exact hfinds⟩
  obtain ⟨r, hr⟩ := Option.isSome_iff_exists.mp hsome
  have hmatch := hr
  unfold packMatch at hmatch
  obtain ⟨before, index', behind, hlist, hfound, hnone⟩ := List.findSome?_eq_some_iff.mp hmatch
  obtain ⟨⟨offset, len⟩, hfind, rfl⟩ := Option.map_eq_some_iff.mp hfound
  refine ⟨before.length, index', offset, len, ?_, ?_, hfind, hr⟩
  · by_contra hlt
    rw [hlist, List.getElem?_append_left (by omega)] at hk
    have := hnone index (List.mem_of_getElem? hk)
    rw [Option.map_eq_none_iff] at this
    rw [this] at hfinds
    cases hfinds
  · rw [hlist, List.getElem?_append_right (Nat.le_refl _), Nat.sub_self]
    rfl

theorem getPackObjectLen_of_nodup (hnames : (s.packIndexes.map PackIndex.packName).Nodup)
    (hmem : index ∈ s.packIndexes) (offset : Nat) :
    s.getPackObjectLen index.packName offset = index.getObjectLenAtOffset offset := by
  unfold getPackObjectLen
  have hsome : (s.packIndexes.find? fun i => decide (i.packName = index.packName)).isSome := by
    rw [List.find?_isSome]
    exact ⟨index, hmem, decide_eq_true rfl⟩
  obtain ⟨found, hfound⟩ := Option.isSome_iff_exists.mp hsome
  have hname : found.packName = index.packName := by simpa using List.find?_some hfound
  rw [hfound, List.inj_on_of_nodup_map hnames (List.mem_of_find?_eq_some hfound) hmem hname]

/-- The place that an index gives a name is that of the object of the name. -/
theorem Shelf.found (hshelf : s.Shelf inflate content index pack entries records) {obj : GitRawObject}
    (hobj : content obj.oid = some obj) {sha : Bytes} (hsha : hexEncode sha = obj.oid) {offset len : Nat}
    (hfind : index.findOffset sha = some (offset, len)) (hcold : s.objectCache obj.oid = none)
    (hmatch : s.packMatch sha = some (index.packName, offset, len)) :
    ObjectAt records offset obj ∧ ∀ read, s.readObjectWith inflate read obj.oid =
      read index.packName offset ((index.getObjectLenAtOffset offset).getD (64 * 1024)) := by
  obtain ⟨hlength, rfl, obj', hobj', hname⟩ := hshelf.indexed.found hfind
  have hsame := hshelf.content offset obj' hobj'
  rw [← hname, hsha, hobj, Option.some.injEq] at hsame
  subst hsame
  refine ⟨hobj', ?_⟩
  intro read
  unfold PackReader.readObjectWith
  rw [hcold, ← hsha, hexDecode_hexEncode]
  simp only
  rw [if_neg (by simp [hlength]), hmatch]

/-- A name leads to its object in the first pack that has it: this one, or one in front of it. -/
theorem ServesAll.readObjectWith (hs : s.ServesAll inflate content) {k : Nat} (hk : s.packIndexes[k]? = some index)
    (hshelf : s.Shelf inflate content index pack entries records) {o : Nat} {obj : GitRawObject}
    (hobj : ObjectAt records o obj) (hcold : s.objectCache obj.oid = none) :
    (∀ read, s.readObjectWith inflate read obj.oid =
      read index.packName o ((index.getObjectLenAtOffset o).getD (64 * 1024))) ∨
    ∃ j index' pack' entries' records' o', j < k ∧ s.packIndexes[j]? = some index' ∧
      s.Shelf inflate content index' pack' entries' records' ∧ ObjectAt records' o' obj ∧
      ∀ read, s.readObjectWith inflate read obj.oid =
        read index'.packName o' ((index'.getObjectLenAtOffset o').getD (64 * 1024)) := by
  obtain ⟨sha, hsha, hfinds⟩ := hshelf.indexed.finds hobj
  obtain ⟨j, index', offset, len, hjk, hj, hfind, hmatch⟩ := packMatch_first hk hfinds
  have hcontent := hshelf.content o obj hobj
  rcases Nat.lt_or_eq_of_le hjk with hlt | rfl
  · obtain ⟨pack', entries', records', hshelf'⟩ := hs.packs index' (List.mem_of_getElem? hj)
    obtain ⟨hobj', hread⟩ := hshelf'.found hcontent hsha hfind hcold hmatch
    exact .inr ⟨j, index', pack', entries', records', offset, hlt, hj, hshelf', hobj', hread⟩
  · rw [hk, Option.some.injEq] at hj
    subst hj
    obtain ⟨hobj', hread⟩ := hshelf.found hcontent hsha hfind hcold hmatch
    rw [hshelf.indexed.lists.place_unique hobj hobj' rfl]
    exact .inl hread

/-- A window that holds a whole record shows it. -/
theorem Shelf.slice (hshelf : s.Shelf inflate content index pack entries records) (hinflate : Inflates inflate)
    {p : Placed} (hp : p ∈ records) {est : Nat} (hest : p.used ≤ readLen est) :
    ∃ window, s.readPackSlice index.packName p.offset (readLen est) = some window ∧ window ≠ [] ∧
      readRecord inflate p.offset window = .ok (p.record, p.used) := by
  have hread := readRecord_take hinflate (packRecords_spec hshelf.indexed.placed p hp) hest
  refine ⟨_, hshelf.blocks.readRange p.offset (readLen est), ?_, hread⟩
  intro hnil
  rw [hnil, readRecord] at hread
  exact absurd hread (by simp [readObjectHeader])

/-- The window that the index gives a record holds the record. -/
theorem Shelf.window (hshelf : s.Shelf inflate content index pack entries records) {p : Placed} (hp : p ∈ records) :
    p.used ≤ readLen ((index.getObjectLenAtOffset p.offset).getD (64 * 1024)) := by
  obtain ⟨packSha, hindex⟩ := hshelf.indexed.listed
  rw [hindex]
  exact window_fits _ packSha hshelf.indexed.lists hshelf.indexed.laid hshelf.indexed.last hp

/-- Every object of every pack is read as what it is, from any window that holds its record. A base that is
named by its id is read from the same pack or from one in front of it. -/
theorem ServesAll.reads_at (hs : s.ServesAll inflate content) (hinflate : Inflates inflate) (k : Nat) :
    ∀ {index pack entries records}, s.packIndexes[k]? = some index →
      s.Shelf inflate content index pack entries records → ∀ {o obj}, ObjectAt records o obj →
      ∀ p ∈ records, p.offset = o → ∀ est, p.used ≤ readLen est →
      ∃ fuel, s.readPackObject inflate fuel index.packName o est = some (.ok obj) := by
  induction k using Nat.strong_induction_on with
  | _ k ihk =>
    intro index pack entries records hk hshelf o obj hobj
    have hlaid := hshelf.indexed.laid
    induction hobj with
    | @object p t hp hsource =>
      intro q hq hqo est hest
      obtain rfl := hlaid.offset_inj hp hq hqo.symm
      obtain ⟨window, hslice, hne, hread⟩ := hshelf.slice hinflate hp hest
      refine ⟨1, ?_⟩
      rw [PackReader.readPackObject, hslice]
      simp only [if_neg hne, hread, hsource]
    | @offset p b base data hp hsource hbase hdata ih =>
      intro q hq hqo est hest
      obtain rfl := hlaid.offset_inj hp hq hqo.symm
      obtain ⟨r, hr, rfl⟩ := hbase.placed
      have hne : r.offset ≠ p.offset := fun heq =>
        (ObjectAt.offset hp hsource hbase hdata).not_self hlaid p hp rfl (heq ▸ hsource)
      obtain ⟨packSha, hindex⟩ := hshelf.indexed.listed
      have hwindow : r.used ≤ readLen ((s.getPackObjectLen index.packName r.offset).getD p.record.size) := by
        rw [getPackObjectLen_of_nodup hs.names (List.mem_of_getElem? hk), hindex]
        exact base_window _ packSha hshelf.indexed.lists hlaid hshelf.indexed.placed hp hr hsource hne _
      obtain ⟨fuel, hfuel⟩ := ih r hr rfl _ hwindow
      obtain ⟨window, hslice, hempty, hread⟩ := hshelf.slice hinflate hp hest
      refine ⟨fuel + 1, ?_⟩
      rw [PackReader.readPackObject, hslice]
      simp only [if_neg hempty, hread, hsource, hfuel, applyToBase, hdata]
    | @sha p b base data hp hsource hbase hdata ih =>
      intro q hq hqo est hest
      obtain rfl := hlaid.offset_inj hp hq hqo.symm
      obtain ⟨window, hslice, hempty, hread⟩ := hshelf.slice hinflate hp hest
      have hthen : ∀ fuel, s.readObjectWith inflate (s.readPackObject inflate fuel) base.oid = some (.ok base) →
          s.readPackObject inflate (fuel + 1) index.packName p.offset est = some (.ok ⟨base.objType, data⟩) := by
        intro fuel hfuel
        rw [PackReader.readPackObject, hslice]
        simp only [if_neg hempty, hread, hsource, hfuel, applyToBase, hdata]
      cases hcached : s.objectCache base.oid with
      | some obj' =>
        have hsame := hs.cache _ _ hcached
        rw [hshelf.content b base hbase, Option.some.injEq] at hsame
        exact ⟨1, hthen 0 (by rw [PackReader.readObjectWith, hcached, hsame])⟩
      | none =>
        rcases hs.readObjectWith hk hshelf hbase hcached with
          hwith | ⟨j, index', pack', entries', records', o', hlt, hj, hshelf', hbase', hwith⟩
        · obtain ⟨r, hr, rfl⟩ := hbase.placed
          obtain ⟨fuel, hfuel⟩ := ih r hr rfl _ (hshelf.window hr)
          exact ⟨fuel + 1, hthen fuel (by rw [hwith, hfuel])⟩
        · obtain ⟨r, hr, rfl⟩ := hbase'.placed
          obtain ⟨fuel, hfuel⟩ := ihk j hlt hj hshelf' hbase' r hr rfl _ (hshelf'.window hr)
          exact ⟨fuel + 1, hthen fuel (by rw [hwith, hfuel])⟩

/-- Every object of every pack is read by its name. -/
theorem ServesAll.reads (hs : s.ServesAll inflate content) (hinflate : Inflates inflate) (hmem : index ∈ s.packIndexes)
    (hshelf : s.Shelf inflate content index pack entries records) {o : Nat} {obj : GitRawObject}
    (hobj : ObjectAt records o obj) : ∃ fuel, s.readObjectRaw inflate fuel obj.oid = some (.ok obj) := by
  obtain ⟨k, hk⟩ := List.mem_iff_getElem?.mp hmem
  cases hcached : s.objectCache obj.oid with
  | some obj' =>
    have hsame := hs.cache _ _ hcached
    rw [hshelf.content o obj hobj, Option.some.injEq] at hsame
    exact ⟨0, by rw [PackReader.readObjectRaw, PackReader.readObjectWith, hcached, hsame]⟩
  | none =>
    rcases hs.readObjectWith hk hshelf hobj hcached with
      hwith | ⟨j, index', pack', entries', records', o', -, hj, hshelf', hobj', hwith⟩
    · obtain ⟨r, hr, rfl⟩ := hobj.placed
      obtain ⟨fuel, hfuel⟩ := hs.reads_at hinflate k hk hshelf hobj r hr rfl _ (hshelf.window hr)
      exact ⟨fuel, by rw [PackReader.readObjectRaw, hwith, hfuel]⟩
    · obtain ⟨r, hr, rfl⟩ := hobj'.placed
      obtain ⟨fuel, hfuel⟩ := hs.reads_at hinflate j hj hshelf' hobj' r hr rfl _ (hshelf'.window hr)
      exact ⟨fuel, by rw [PackReader.readObjectRaw, hwith, hfuel]⟩

/-! ## However deep the bases are -/

theorem readObjectWith_mono {read read' : Str → Nat → Nat → Option (Except ReadError GitRawObject)}
    (hread : ∀ packName offset len r, read packName offset len = some r → read' packName offset len = some r)
    {oid : Str} {r : Except ReadError GitRawObject} (h : s.readObjectWith inflate read oid = some r) :
    s.readObjectWith inflate read' oid = some r := by
  unfold PackReader.readObjectWith at h ⊢
  cases hcached : s.objectCache oid with
  | some obj =>
    rw [hcached] at h
    exact h
  | none =>
    rw [hcached] at h
    cases hsha : hexDecode oid with
    | none =>
      rw [hsha] at h
      exact h
    | some sha =>
      rw [hsha] at h
      simp only at h ⊢
      split_ifs at h ⊢
      · exact h
      · cases hmatch : s.packMatch sha with
        | none =>
          rw [hmatch] at h
          exact h
        | some found =>
          rw [hmatch] at h
          exact hread _ _ _ _ h

theorem applyToBase_mono {delta : Bytes} {base base' : Option (Except ReadError GitRawObject)}
    (hbase : ∀ r, base = some r → base' = some r) {r : Except ReadError GitRawObject}
    (h : applyToBase delta base = some r) : applyToBase delta base' = some r := by
  cases base with
  | none => cases h
  | some b =>
    rw [hbase b rfl]
    exact h

theorem readPackObject_mono {fuel fuel' : Nat} (hfuel : fuel ≤ fuel') :
    ∀ {packName offset est r}, s.readPackObject inflate fuel packName offset est = some r →
      s.readPackObject inflate fuel' packName offset est = some r := by
  induction fuel generalizing fuel' with
  | zero => intro packName offset est r h; cases h
  | succ fuel ih =>
    obtain ⟨fuel', rfl⟩ := Nat.exists_eq_add_of_lt hfuel
    intro packName offset est r h
    have hstep : ∀ {packName offset est r}, s.readPackObject inflate fuel packName offset est = some r →
        s.readPackObject inflate (fuel + fuel') packName offset est = some r := ih (Nat.le_add_right _ _)
    rw [readPackObject] at h ⊢
    cases hslice : s.readPackSlice packName offset (readLen est) with
    | none =>
      rw [hslice] at h
      exact h
    | some window =>
      rw [hslice] at h
      simp only at h ⊢
      split_ifs at h ⊢
      · exact h
      cases hrecord : readRecord inflate offset window with
      | error e =>
        rw [hrecord] at h
        exact h
      | ok read =>
        obtain ⟨record, used⟩ := read
        rw [hrecord] at h
        simp only at h ⊢
        cases hsource : record.source with
        | object t =>
          rw [hsource] at h
          exact h
        | delta base =>
          rw [hsource] at h
          cases base with
          | offset base => exact applyToBase_mono (fun r hr => hstep hr) h
          | sha base => exact applyToBase_mono (fun r hr => readObjectWith_mono (fun _ _ _ _ => hstep) hr) h

theorem readObjectRaw_mono {fuel fuel' : Nat} (hfuel : fuel ≤ fuel') {oid : Str} {r : Except ReadError GitRawObject}
    (h : s.readObjectRaw inflate fuel oid = some r) : s.readObjectRaw inflate fuel' oid = some r :=
  readObjectWith_mono (fun _ _ _ _ => readPackObject_mono hfuel) h

open Classical in
/-- What a read of an object comes to, if it comes to an object. -/
noncomputable def answer (inflate : Bytes → Option (Bytes × Nat)) (s : PackReader) (oid : Str) : Option Bytes :=
  if h : ∃ obj fuel, s.readObjectRaw inflate fuel oid = some (.ok obj) then some h.choose.data else none

theorem answer_eq {fuel : Nat} {oid : Str} {obj : GitRawObject}
    (h : s.readObjectRaw inflate fuel oid = some (.ok obj)) : s.answer inflate oid = some obj.data := by
  have hsome : ∃ obj fuel, s.readObjectRaw inflate fuel oid = some (.ok obj) := ⟨obj, fuel, h⟩
  obtain ⟨fuel', hfuel'⟩ := hsome.choose_spec
  have hboth := (readObjectRaw_mono (Nat.le_max_left fuel fuel') h).symm.trans
    (readObjectRaw_mono (Nat.le_max_right fuel fuel') hfuel')
  rw [Option.some.injEq, Except.ok.injEq] at hboth
  unfold answer
  rw [dif_pos hsome, ← hboth]

end PackReader

end GitNfs
