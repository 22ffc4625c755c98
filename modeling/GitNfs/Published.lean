import GitNfs.Restart
import GitNfs.Startable
import GitNfs.Wal.Packed
import GitNfs.Wal.Shown

/-! # What a server publishes

A commit that is rebuilt on a loaded base comes with all that the base does not have.
-/

namespace GitNfs

open VfsManager

/-- The trees that are loaded are those of the base; it has no submodules, and its files are no trees. -/
structure GitEngine.LoadedFrom (g : GitEngine) (content : Str → Option GitRawObject) (base rootOid : Str) : Prop where
  whole : Whole content base rootOid
  loaded : g.HasHierarchy (dataOf content) rootOid
  only : ∀ oid t, g.getTree oid = some t → InHierarchy (dataOf content) rootOid oid
  plain : ∀ oid t, g.getTree oid = some t → ∀ e ∈ t.entries, e.mode ≠ .submodule ∧
    (e.mode.isDir = false → ∃ obj, content e.oid = some obj ∧ obj.objType ≠ .tree)

/-- The repository has the objects of a commit, and what is reached as a tree is a tree. -/
structure RebuiltObjects.StoredIn (rebuilt : RebuiltObjects) (content : Str → Option GitRawObject) : Prop where
  objects : ∀ obj ∈ rebuilt.objects, content obj.oid = some obj.raw
  trees : ∀ oid obj, InHierarchy (dataOf content) rebuilt.rootTreeOid oid → content oid = some obj →
    obj.objType = .tree

section

variable {g : GitEngine} {content : Str → Option GitRawObject} {base baseRoot : Str} {trees : List Bytes}
  {rebuilt : RebuiltObjects}

theorem GitEngine.LoadedFrom.reads (h : g.LoadedFrom content base baseRoot) {oid : Str} {t : GitTree}
    (ht : g.getTree oid = some t) : InHierarchy (dataOf content) baseRoot oid ∧
      ∃ data, dataOf content oid = some data ∧ GitTree.parse data = .ok t := by
  have hin := h.only oid t ht
  obtain ⟨data, tree, hdata, hparse, htree⟩ := h.loaded oid hin
  obtain rfl := Option.some.inj (ht.symm.trans htree)
  exact ⟨hin, data, hdata, hparse⟩

theorem readTree_of_parse {read : Str → Option Bytes} {oid : Str} {data : Bytes} {t : GitTree}
    (hdata : read oid = some data) (hparse : GitTree.parse data = .ok t) : TreeLoader.readTree read oid = some t := by
  unfold TreeLoader.readTree
  rw [hdata, Option.bind_some, hparse]
  rfl

/-- What a loaded base has is needed by it, and is a tree that is loaded or no tree. -/
theorem GitEngine.LoadedFrom.has (h : g.LoadedFrom content base baseRoot) {oid : Str} (hhas : g.Has oid) :
    Needs content base oid ∧
      ((∃ t, g.getTree oid = some t) ∨ ∃ obj, content oid = some obj ∧ obj.objType ≠ .tree) := by
  rcases hhas with ⟨t, ht⟩ | ⟨treeOid, t, ht, hoid⟩
  · exact ⟨.tree h.whole (h.reads ht).1, .inl ⟨t, ht⟩⟩
  · obtain ⟨e, he, rfl⟩ := List.mem_map.mp hoid
    obtain ⟨hin, data, hdata, hparse⟩ := h.reads ht
    have hread := readTree_of_parse hdata hparse
    obtain ⟨hplain, hfile⟩ := h.plain treeOid t ht e he
    cases hdir : e.mode.isDir with
    | true =>
      have hbelow := InHierarchy.entry hin hread he hdir
      obtain ⟨-, tree, -, -, htree⟩ := h.loaded e.oid hbelow
      exact ⟨.tree h.whole hbelow, .inl ⟨tree, htree⟩⟩
    | false => exact ⟨.file h.whole hin hread he hdir hplain, .inr (hfile hdir)⟩

/-- A tree that the commit leads to names in the repository what it names in the pack or in the base. -/
theorem ClosedPack.names (h : ClosedPack g trees rebuilt) (hbase : g.LoadedFrom content base baseRoot)
    (hstored : rebuilt.StoredIn content) (hparse : ∀ raw ∈ trees, ∃ t, GitTree.parse raw = .ok t)
    (hnamed : ∀ obj ∈ rebuilt.objects, obj.oid = computeGitSha1 obj.objType obj.data) {oid : Str}
    (hreach : Relation.ReflTransGen (Names g trees) rebuilt.rootTreeOid oid)
    (hin : InHierarchy (dataOf content) rebuilt.rootTreeOid oid) :
    ∃ data t, dataOf content oid = some data ∧ GitTree.parse data = .ok t ∧ ∀ x ∈ t.oids, Names g trees oid x := by
  rcases h.closed oid hreach with ⟨obj, hobj, rfl⟩ | hhas
  · have hcontent := hstored.objects obj hobj
    have htype : obj.objType = .tree := hstored.trees obj.oid obj.raw hin hcontent
    have hraw := h.written obj hobj htype
    obtain ⟨t, ht⟩ := hparse obj.data hraw
    refine ⟨obj.data, t, ?_, ht, ?_⟩
    · rw [dataOf, hcontent]
      rfl
    · intro x hx
      refine ⟨t, .inr ⟨obj.data, hraw, ?_, ht⟩, hx⟩
      rw [hnamed obj hobj, htype]
  · rcases (hbase.has hhas).2 with ⟨t, ht⟩ | ⟨obj, hobj, hother⟩
    · obtain ⟨-, data, hdata, hparsed⟩ := hbase.reads ht
      exact ⟨data, t, hdata, hparsed, fun x hx => ⟨t, .inl ht, hx⟩⟩
    · exact absurd (hstored.trees oid obj hin hobj) hother

theorem ClosedPack.reaches (h : ClosedPack g trees rebuilt) (hbase : g.LoadedFrom content base baseRoot)
    (hstored : rebuilt.StoredIn content) (hparse : ∀ raw ∈ trees, ∃ t, GitTree.parse raw = .ok t)
    (hnamed : ∀ obj ∈ rebuilt.objects, obj.oid = computeGitSha1 obj.objType obj.data) {oid : Str}
    (hin : InHierarchy (dataOf content) rebuilt.rootTreeOid oid) :
    Relation.ReflTransGen (Names g trees) rebuilt.rootTreeOid oid := by
  induction hin with
  | root => exact .refl
  | entry hin hread he _ ih =>
    obtain ⟨data, t, hdata, hparsed, hnames⟩ := h.names hbase hstored hparse hnamed ih hin
    obtain rfl := Option.some.inj ((readTree_of_parse hdata hparsed).symm.trans hread)
    exact ih.tail (hnames _ (List.mem_map_of_mem he))

/-- What a whole commit needs is in its pack, or the base needs it too. -/
theorem ClosedPack.covers (h : ClosedPack g trees rebuilt) (hbase : g.LoadedFrom content base baseRoot)
    (hstored : rebuilt.StoredIn content) (hparse : ∀ raw ∈ trees, ∃ t, GitTree.parse raw = .ok t)
    (hnamed : ∀ obj ∈ rebuilt.objects, obj.oid = computeGitSha1 obj.objType obj.data)
    (hroot : IsOid rebuilt.rootTreeOid) :
    Whole content rebuilt.commitOid rebuilt.rootTreeOid ∧ ∀ oid, Needs content rebuilt.commitOid oid →
      oid ∈ rebuilt.objects.map GitObjectToPack.oid ∨ Needs content base oid := by
  obtain ⟨parent, author, timestamp, message, hcommit⟩ := h.commit
  have hcontent := hstored.objects _ hcommit
  have hline : treeLine (fromUtf8Lossy (asBytes (commitContent rebuilt.rootTreeOid parent author timestamp message))) =
      some rebuilt.rootTreeOid := by
    rw [fromUtf8Lossy_asBytes, treeLine_commitContent _ _ _ _ _ hroot]
  have hnames {oid : Str} (hin : InHierarchy (dataOf content) rebuilt.rootTreeOid oid) :=
    h.names hbase hstored hparse hnamed (h.reaches hbase hstored hparse hnamed hin) hin
  have hsame {rootOid : Str} (hwhole : Whole content rebuilt.commitOid rootOid) : rootOid = rebuilt.rootTreeOid := by
    obtain ⟨obj, hobj, hother⟩ := hwhole.commit
    obtain rfl := Option.some.inj (hcontent.symm.trans hobj)
    exact Option.some.inj (hother.symm.trans hline)
  have hclosed {oid : Str} (hreach : Relation.ReflTransGen (Names g trees) rebuilt.rootTreeOid oid) :
      oid ∈ rebuilt.objects.map GitObjectToPack.oid ∨ Needs content base oid := by
    rcases h.closed oid hreach with ⟨obj, hobj, rfl⟩ | hhas
    · exact .inl (List.mem_map_of_mem hobj)
    · exact .inr (hbase.has hhas).1
  refine ⟨⟨⟨_, hcontent, hline⟩, ?_⟩, ?_⟩
  · intro oid hin
    obtain ⟨data, t, hdata, hparsed, -⟩ := hnames hin
    exact ⟨data, t, hdata, hparsed⟩
  · intro oid hneeds
    cases hneeds with
    | commit => exact .inl (List.mem_map_of_mem hcommit)
    | tree hwhole hin =>
      obtain rfl := hsame hwhole
      exact hclosed (h.reaches hbase hstored hparse hnamed hin)
    | file hwhole hin hread he =>
      obtain rfl := hsame hwhole
      obtain ⟨data, t, hdata, hparsed, hbelow⟩ := hnames hin
      obtain rfl := Option.some.inj ((readTree_of_parse hdata hparsed).symm.trans hread)
      exact hclosed ((h.reaches hbase hstored hparse hnamed hin).tail (hbelow _ (List.mem_map_of_mem he)))

end

/-! ## The trees of a commit that was rebuilt -/

section

variable {g : GitEngine} {v : VfsManager} {staging : StagingStore} {parent author message : Str} {timestamp : Nat}
  {rebuilt : RebuiltObjects}

/-- The trees of a commit can be parsed, and its objects are filed under their ids. -/
theorem rebuildGitObjects_filed (hg : g.ParsedTrees) (hv : Filed g.Has v)
    (h : rebuildGitObjects v staging g parent author message timestamp = some (.ok rebuilt)) :
    (∀ raw ∈ treesOfCommit g staging v, ∃ t, GitTree.parse raw = .ok t) ∧
      ∃ objs : NewObjects, rebuilt.objects = objs.entries.map Sigma.snd ∧
        ∀ k obj, objs.lookup k = some obj → obj.oid = k ∧ obj.objType.Plain := by
  obtain ⟨v₁, objs, dirty, w, objs', text, hblobs, hdirty, hrec, -, hobjects⟩ := rebuildGitObjects_parts h
  have htrees : treesOfCommit g staging v = committedTrees staging dirty w (v₁.nextInode + 1) rootInode := by
    unfold treesOfCommit
    rw [hblobs]
    simp only [hdirty, hrec]
  obtain ⟨-, hv₁, hstaged⟩ := stagedBlobs_packs (fun _ hid => hid) (hv.mono fun _ => Or.inl)
    (fun o obj ho => by simp at ho) hblobs
  have hwrites := rebuildTreeRecursive_commits _ _ _ _ _ _ hv₁.wellFormed hrec
  have hw := hv₁.updates hg (fun _ => Or.inl) (hwrites.updates packLimits)
  obtain ⟨raw, below, -, -, hadds, -⟩ := hwrites.tree w (.refl w)
  refine ⟨?_, _, hobjects, ?_⟩
  · rw [htrees]
    exact committedTrees_parse hw.wellFormed (fun i n hn hne => (hw.each i n hn hne).entrant) _ _
  · intro k obj hk
    by_cases hcommit : k = rebuilt.commitOid
    · rw [hcommit, AList.lookup_insert, Option.some.injEq] at hk
      rw [hcommit, ← hk]
      exact ⟨rfl, .inl rfl⟩
    · rw [AList.lookup_insert_ne hcommit] at hk
      rcases hadds.only k obj hk with hblob | ⟨raw', -, -, rfl⟩
      · obtain ⟨id, -, n, content, -, -, -, -, -, rfl⟩ := hstaged k obj hblob
        exact ⟨rfl, .inr (.inr (.inl rfl))⟩
      · exact ⟨rfl, .inr (.inl rfl)⟩

theorem rebuildGitObjects_packable (hg : g.ParsedTrees) (hv : Filed g.Has v)
    (h : rebuildGitObjects v staging g parent author message timestamp = some (.ok rebuilt)) :
    Packable rebuilt.objects := by
  obtain ⟨-, objs, hobjects, hfiled⟩ := rebuildGitObjects_filed hg hv h
  have hentry : ∀ e ∈ objs.entries, e.2.oid = e.1 ∧ e.2.objType.Plain :=
    fun e he => hfiled e.1 e.2 (AList.mem_lookup_iff.mpr he)
  refine ⟨?_, rebuildGitObjects_named h, ?_⟩
  · intro obj hobj
    rw [hobjects] at hobj
    obtain ⟨e, he, rfl⟩ := List.mem_map.mp hobj
    exact (hentry e he).2
  · have hkeys : rebuilt.objects.map GitObjectToPack.oid = objs.keys := by
      rw [hobjects, List.map_map]
      exact List.map_congr_left fun e he => (hentry e he).1
    rw [hkeys]
    exact objs.keys_nodup

variable {zlib : Bytes → Bytes} {inflate : Bytes → Option (Bytes × Nat)} {content : Str → Option GitRawObject}
  {packs : Str → Option (Bytes × Bytes)} {base baseRoot : Str} {c : PackedCommit}

/-- A server that has loaded its base publishes commits from which a server can start. -/
theorem rebuildGitObjects_built (hg : g.ParsedTrees) (hv : Filed g.Has v) (hstaged : StagedInTree staging v)
    (h : rebuildGitObjects v staging g parent author message timestamp = some (.ok rebuilt))
    (hbase : g.LoadedFrom content base baseRoot) (hstored : rebuilt.StoredIn content)
    (hcommit : c.commitOid = rebuilt.commitOid)
    (hmade : createPackAndIndexBytes zlib rebuilt.objects = .ok (c.packData, c.idxData, c.packSha))
    (hzlib : Inverts zlib inflate rebuilt.objects) (hlast : LastShort zlib rebuilt.objects)
    (hnamed : packs c.packSha = some (c.packData, c.idxData)) :
    Built zlib inflate content packs base c := by
  obtain ⟨hwhole, hcovers⟩ := (rebuildGitObjects_closedPack hg hv hstaged h).covers hbase hstored
    (rebuildGitObjects_filed hg hv h).1 (rebuildGitObjects_named h) (rebuildGitObjects_commit h).1
  rw [← hcommit] at hwhole hcovers
  exact ⟨⟨_, hwhole⟩, rebuilt.objects,
    ⟨hmade, rebuildGitObjects_packable hg hv h, hzlib, hlast, hstored.objects, hnamed⟩, hcovers⟩

end

end GitNfs
