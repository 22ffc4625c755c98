import GitNfs.Git.Refs
import GitNfs.Git.WrittenPack

/-! # Opening a repository in a bucket

A start lists the indexes of the repository and reads each of them. What it can read afterwards are the objects of
the packs whose indexes are there.
-/

namespace GitNfs

namespace Bucket

def idxNames (b : Bucket) : List Str := (b.listObjects "objects/pack/".toList).filter ".idx".toList.isSuffixOf

/-- The pack that an index belongs to. -/
def packOfIndex (name : Str) : Str := name.take (name.length - 4) ++ ".pack".toList

/-- A read of a range of an object. -/
def readSegment (b : Bucket) (name : Str) (offset len : Nat) : Option Bytes :=
  (b.lookup name).map fun data => (data.drop offset).take len

end Bucket

/-- Why a repository cannot be opened. -/
inductive OpenError where
  | unreadable (name : Str)
  | index (name : Str) (e : IndexError)
  deriving DecidableEq, Repr

namespace PackReader

/-- The indexes that are not in memory yet. -/
def loadIndexes (b : Bucket) (loaded : List Str) : List Str → Except OpenError (List PackIndex)
  | [] => .ok []
  | name :: names =>
    if loaded.contains (Bucket.packOfIndex name) then loadIndexes b loaded names
    else
      match b.lookup name with
      | none => .error (.unreadable name)
      | some idxBytes =>
        match PackIndex.parse (Bucket.packOfIndex name) idxBytes with
        | .error e => .error (.index name e)
        | .ok index =>
          match loadIndexes b loaded names with
          | .error e => .error e
          | .ok indexes => .ok (index :: indexes)

def refreshPackIndexes (b : Bucket) (s : PackReader) : Except OpenError PackReader :=
  match loadIndexes b (s.packIndexes.map PackIndex.packName) b.idxNames with
  | .error e => .error e
  | .ok indexes => .ok { s with packIndexes := s.packIndexes ++ indexes }

/-- `GcsGitStorage::new`, with the blocks that are on disk from before. -/
def openBucket (blocks : BlockCache) (b : Bucket) : Except OpenError PackReader :=
  refreshPackIndexes b ⟨[], fun _ => none, blocks, b.readSegment, b.lookup⟩

end PackReader

/-! ## What is shelved in a bucket -/

namespace Bucket

theorem mem_idxNames {b : Bucket} {name : Str} :
    name ∈ b.idxNames ↔ (b.lookup name).isSome ∧ "objects/pack/".toList.isPrefixOf name = true ∧
      ".idx".toList.isSuffixOf name = true := by
  unfold idxNames listObjects
  rw [List.mem_filter, (sortBy_perm _ _).mem_iff, List.mem_filter, ← AList.mem_keys, ← AList.lookup_isSome, and_assoc]

theorem idxNames_nodup (b : Bucket) : b.idxNames.Nodup := by
  unfold idxNames listObjects
  apply List.Nodup.filter
  rw [(sortBy_perm _ _).nodup_iff]
  exact b.keys_nodup.filter _

theorem packOfIndex_eq {stem : Str} : packOfIndex (stem ++ ".idx".toList) = stem ++ ".pack".toList := by
  have hlength : ".idx".toList.length = 4 := by decide
  unfold packOfIndex
  rw [List.length_append, hlength, Nat.add_sub_cancel, List.take_left]

theorem packOfIndex_inj {name name' : Str} (h : ".idx".toList.isSuffixOf name = true)
    (h' : ".idx".toList.isSuffixOf name' = true) (heq : packOfIndex name = packOfIndex name') : name = name' := by
  obtain ⟨stem, rfl⟩ := List.isSuffixOf_iff_suffix.mp h
  obtain ⟨stem', rfl⟩ := List.isSuffixOf_iff_suffix.mp h'
  rw [packOfIndex_eq, packOfIndex_eq] at heq
  rw [List.append_cancel_right heq]

theorem packOfIndex_ne {name name' : Str} (h : ".idx".toList.isSuffixOf name' = true) : packOfIndex name ≠ name' := by
  obtain ⟨stem, rfl⟩ := List.isSuffixOf_iff_suffix.mp h
  exact append_ne_of_last (a := 'k') (b := 'x') (by decide) (by decide) (by decide)

variable {inflate : Bytes → Option (Bytes × Nat)} {content : Str → Option GitRawObject} {b : Bucket}

/-- The pack of an index is there, the index says what is in it, and its objects are those of the repository. -/
structure Shelved (inflate : Bytes → Option (Bytes × Nat)) (content : Str → Option GitRawObject) (b : Bucket)
    (name : Str) (records : List Placed) : Prop where
  shelf : ∃ idx pack index entries, b.lookup name = some idx ∧ b.lookup (packOfIndex name) = some pack ∧
    PackIndex.parse (packOfIndex name) idx = .ok index ∧ index.packName = packOfIndex name ∧
    IndexedPack inflate index pack entries records
  content : ∀ o obj, ObjectAt records o obj → content obj.oid = some obj

/-- Every index of the repository has its pack. -/
def Sound (inflate : Bytes → Option (Bytes × Nat)) (content : Str → Option GitRawObject) (b : Bucket) : Prop :=
  ∀ name ∈ b.idxNames, ∃ records, b.Shelved inflate content name records

/-- An object is in a pack whose index is there. -/
def Holds (inflate : Bytes → Option (Bytes × Nat)) (content : Str → Option GitRawObject) (b : Bucket) (oid : Str) :
    Prop :=
  ∃ name ∈ b.idxNames, ∃ records o obj, b.Shelved inflate content name records ∧ ObjectAt records o obj ∧ obj.oid = oid

/-- The blocks that are on disk are those of the packs. -/
def CachedTruly (blocks : BlockCache) (b : Bucket) : Prop :=
  ∀ name pack, b.lookup name = some pack → blocks.Exact (b.readSegment name) name pack

end Bucket

namespace PackReader

open Bucket (packOfIndex Shelved)

variable {inflate : Bytes → Option (Bytes × Nat)} {content : Str → Option GitRawObject} {b : Bucket}

/-- The index of a name was read. -/
def Loaded (b : Bucket) (name : Str) (index : PackIndex) : Prop :=
  ∃ idx, b.lookup name = some idx ∧ PackIndex.parse (packOfIndex name) idx = .ok index

theorem loadIndexes_ok {names : List Str} (h : ∀ name ∈ names, ∃ records, b.Shelved inflate content name records) :
    ∃ indexes, loadIndexes b [] names = .ok indexes ∧ (∀ index ∈ indexes, ∃ name ∈ names, Loaded b name index) ∧
      (∀ name ∈ names, ∃ index ∈ indexes, Loaded b name index) ∧
      indexes.map PackIndex.packName = names.map packOfIndex := by
  induction names with
  | nil => exact ⟨[], rfl, nofun, nofun, rfl⟩
  | cons name names ih =>
    obtain ⟨⟨records, ⟨idx, pack, index, entries, hidx, -, hparse, hname, -⟩, -⟩, hrest⟩ := List.forall_mem_cons.mp h
    obtain ⟨indexes, hload, hfrom, hto, hnames⟩ := ih hrest
    have hloaded : Loaded b name index := ⟨idx, hidx, hparse⟩
    refine ⟨index :: indexes, ?_, ?_, ?_, by rw [List.map_cons, List.map_cons, hname, hnames]⟩
    · unfold loadIndexes
      rw [if_neg (by simp), hidx]
      simp only [hparse, hload]
    · intro i hi
      rcases List.mem_cons.mp hi with rfl | hi
      · exact ⟨name, List.mem_cons_self, hloaded⟩
      · obtain ⟨n, hn, hin⟩ := hfrom i hi
        exact ⟨n, List.mem_cons_of_mem _ hn, hin⟩
    · intro n hn
      rcases List.mem_cons.mp hn with rfl | hn
      · exact ⟨index, List.mem_cons_self, hloaded⟩
      · obtain ⟨i, hi, hin⟩ := hto n hn
        exact ⟨i, List.mem_cons_of_mem _ hi, hin⟩

/-- The pack of an index that was read is served. -/
theorem Loaded.shelf {name : Str} {index : PackIndex} (hloaded : Loaded b name index) {records : List Placed}
    (h : b.Shelved inflate content name records) {blocks : BlockCache} (hblocks : b.CachedTruly blocks) {s : PackReader}
    (hcache : s.blockCache = blocks) (hfetch : s.fetch = b.readSegment) :
    ∃ pack entries, s.Shelf inflate content index pack entries records := by
  obtain ⟨idx, hidx, hparse⟩ := hloaded
  obtain ⟨idx', pack, index', entries, hidx', hpack, hparse', hname, hindexed⟩ := h.shelf
  rw [hidx, Option.some.injEq] at hidx'
  subst hidx'
  rw [hparse, Except.ok.injEq] at hparse'
  subst hparse'
  refine ⟨pack, entries, hindexed, ?_, h.content⟩
  rw [hcache, hfetch, hname]
  exact hblocks _ pack hpack

/-- A repository whose indexes have their packs is opened, and its packs are served. -/
theorem openBucket_serves (h : b.Sound inflate content) {blocks : BlockCache} (hblocks : b.CachedTruly blocks) :
    ∃ s, openBucket blocks b = .ok s ∧ s.ServesAll inflate content ∧
      ∀ name ∈ b.idxNames, ∀ records, b.Shelved inflate content name records →
        ∃ index ∈ s.packIndexes, ∃ pack entries, s.Shelf inflate content index pack entries records := by
  obtain ⟨indexes, hload, hfrom, hto, hnames⟩ := loadIndexes_ok h
  refine ⟨⟨indexes, fun _ => none, blocks, b.readSegment, b.lookup⟩, ?_, ⟨?_, ?_, nofun⟩, ?_⟩
  · unfold openBucket refreshPackIndexes
    rw [List.map_nil, hload]
    rfl
  · intro index hindex
    obtain ⟨name, hname, hloaded⟩ := hfrom index hindex
    obtain ⟨records, hshelved⟩ := h name hname
    obtain ⟨pack, entries, hshelf⟩ := hloaded.shelf hshelved hblocks
      (s := ⟨indexes, fun _ => none, blocks, b.readSegment, b.lookup⟩) rfl rfl
    exact ⟨pack, entries, records, hshelf⟩
  · rw [hnames]
    apply List.Nodup.map_on _ b.idxNames_nodup
    intro name hname name' hname' heq
    exact Bucket.packOfIndex_inj (Bucket.mem_idxNames.mp hname).2.2 (Bucket.mem_idxNames.mp hname').2.2 heq
  · intro name hname records hshelved
    obtain ⟨index, hindex, hloaded⟩ := hto name hname
    exact ⟨index, hindex, hloaded.shelf hshelved hblocks rfl rfl⟩

/-- What a repository holds is read by its id. -/
theorem openBucket_reads (h : b.Sound inflate content) (hinflate : Inflates inflate) {blocks : BlockCache}
    (hblocks : b.CachedTruly blocks) :
    ∃ s, openBucket blocks b = .ok s ∧ ∀ oid, b.Holds inflate content oid →
      ∃ obj fuel, content oid = some obj ∧ s.readObjectRaw inflate fuel oid = some (.ok obj) := by
  obtain ⟨s, hopen, hserves, hshelves⟩ := openBucket_serves h hblocks
  refine ⟨s, hopen, ?_⟩
  rintro oid ⟨name, hname, records, o, obj, hshelved, hobj, rfl⟩
  obtain ⟨index, hindex, pack, entries, hshelf⟩ := hshelves name hname records hshelved
  obtain ⟨fuel, hfuel⟩ := hserves.reads hinflate hindex hshelf hobj
  exact ⟨obj, fuel, hshelved.content o obj hobj, hfuel⟩

/-! ## The packs that are known -/

theorem parse_packName {packName : Str} {data : Bytes} {index : PackIndex}
    (h : PackIndex.parse packName data = .ok index) : index.packName = packName := by
  unfold PackIndex.parse at h
  split_ifs at h
  simp only at h
  split_ifs at h
  split at h
  · cases h
  · rw [← Except.ok.inj h]

theorem loadIndexes_names {b : Bucket} {loaded names : List Str} {indexes : List PackIndex}
    (h : loadIndexes b loaded names = .ok indexes) :
    indexes.map PackIndex.packName = (names.map packOfIndex).filter fun name => !loaded.contains name := by
  induction names generalizing indexes with
  | nil =>
    obtain rfl := Except.ok.inj h
    rfl
  | cons name names ih =>
    unfold loadIndexes at h
    split at h
    · rename_i hloaded
      rw [List.map_cons, List.filter_cons, hloaded, ih h]
      rfl
    · rename_i hnew
      split at h
      · cases h
      · split at h
        · cases h
        · rename_i index hparse
          split at h
          · cases h
          · rename_i rest hrest
            obtain rfl := Except.ok.inj h
            rw [List.map_cons, List.map_cons, List.filter_cons, Bool.eq_false_iff.mpr hnew, Bool.not_false, if_pos rfl,
              ih hrest, parse_packName hparse]

/-- The packs that a reader knows after a refresh are those that a publisher writes into the server info. -/
theorem refreshPackIndexes_names {b : Bucket} {s s' : PackReader} (h : refreshPackIndexes b s = .ok s') :
    s'.packIndexes.map PackIndex.packName =
      (GcsGitStorage.mk b (s.packIndexes.map PackIndex.packName)).refreshPackIndexes.packNames := by
  unfold refreshPackIndexes at h
  split at h
  · cases h
  · rename_i indexes hload
    obtain rfl := Except.ok.inj h
    rw [List.map_append, loadIndexes_names hload]
    rfl

end PackReader

/-! ## Writes -/

namespace Bucket

variable {inflate : Bytes → Option (Bytes × Nat)} {content : Str → Option GitRawObject} {b : Bucket}

/-- A write changes no index that is there and no pack of one. -/
def Spares (b : Bucket) (w : Str × Bytes) : Prop :=
  ∀ name ∈ b.idxNames, (w.1 = name → b.lookup name = some w.2) ∧
    (w.1 = packOfIndex name → b.lookup (packOfIndex name) = some w.2)

theorem lookup_write (b : Bucket) (w : Str × Bytes) (name : Str) :
    (b.writeRapidObject w.1 w.2).lookup name = if w.1 = name then some w.2 else b.lookup name := by
  unfold writeRapidObject
  split
  · rename_i h
    rw [← h, AList.lookup_insert]
  · rename_i h
    exact AList.lookup_insert_ne (Ne.symm h)

theorem idxNames_write {w : Str × Bytes} {name : Str} (h : name ∈ (b.writeRapidObject w.1 w.2).idxNames) :
    name ∈ b.idxNames ∨ w.1 = name := by
  by_cases hw : w.1 = name
  · exact .inr hw
  · obtain ⟨hthere, hfront, hend⟩ := mem_idxNames.mp h
    rw [lookup_write, if_neg hw] at hthere
    exact .inl (mem_idxNames.mpr ⟨hthere, hfront, hend⟩)

theorem mem_idxNames_write {w : Str × Bytes} {name : Str} (h : name ∈ b.idxNames) :
    name ∈ (b.writeRapidObject w.1 w.2).idxNames := by
  obtain ⟨hthere, hfront, hend⟩ := mem_idxNames.mp h
  refine mem_idxNames.mpr ⟨?_, hfront, hend⟩
  rw [lookup_write]
  split
  · rfl
  · exact hthere

theorem Shelved.write {name : Str} {records : List Placed} (h : b.Shelved inflate content name records)
    {w : Str × Bytes} (hspares : b.Spares w) (hname : name ∈ b.idxNames) :
    (b.writeRapidObject w.1 w.2).Shelved inflate content name records := by
  obtain ⟨⟨idx, pack, index, entries, hidx, hpack, hrest⟩, hcontent⟩ := h
  obtain ⟨hkeepsIdx, hkeepsPack⟩ := hspares name hname
  refine ⟨⟨idx, pack, index, entries, ?_, ?_, hrest⟩, hcontent⟩
  · rw [lookup_write]
    split
    · rename_i hw
      rw [← hkeepsIdx hw, hidx]
    · exact hidx
  · rw [lookup_write]
    split
    · rename_i hw
      rw [← hkeepsPack hw, hpack]
    · exact hpack

theorem Sound.write (h : b.Sound inflate content) {w : Str × Bytes} (hspares : b.Spares w)
    (hnew : w.1 ∈ (b.writeRapidObject w.1 w.2).idxNames → w.1 ∉ b.idxNames →
      ∃ records, (b.writeRapidObject w.1 w.2).Shelved inflate content w.1 records) :
    (b.writeRapidObject w.1 w.2).Sound inflate content := by
  intro name hname
  by_cases hold : name ∈ b.idxNames
  · obtain ⟨records, hshelved⟩ := h name hold
    exact ⟨records, hshelved.write hspares hold⟩
  · obtain rfl := (idxNames_write hname).resolve_left hold
    exact hnew hname hold

theorem Holds.write {oid : Str} (h : b.Holds inflate content oid) {w : Str × Bytes} (hspares : b.Spares w) :
    (b.writeRapidObject w.1 w.2).Holds inflate content oid := by
  obtain ⟨name, hname, records, o, obj, hshelved, hobj, hoid⟩ := h
  exact ⟨name, mem_idxNames_write hname, records, o, obj, hshelved.write hspares hname, hobj, hoid⟩

end Bucket

end GitNfs
