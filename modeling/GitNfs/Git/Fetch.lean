import GitNfs.Cache.Blobs
import GitNfs.Git.FileView
import GitNfs.Git.Initialize
import GitNfs.Git.PackReader
import GitNfs.Git.SmartHttp

/-! # Starting over HTTP

An engine asks the server for the trees of a commit once, and keeps the pack on the disk. A later start at the
commit takes what is there, even if the write of it was cut off. A server and a disk may hold anything: a tree
is only ever taken under the id of its bytes.
-/

namespace GitNfs

open TreeLoader (readTree)

/-! ## Requests and answers -/

inductive HttpError where
  | send
  | status (code : Nat)
  | body
  deriving DecidableEq, Repr

inductive FetchError where
  | http (e : HttpError)
  | pkt (e : PktError)
  deriving DecidableEq, Repr

/-- What a request to `git-upload-pack` comes to. -/
abbrev Post := Bytes → Except HttpError Bytes

namespace GitSmartHttpClient

def lsRefsBody : Bytes :=
  encodePktLine "command=ls-refs".toList ++ encodePktLine "agent=git-nfs".toList ++ delimPkt ++
    encodePktLine "ref-prefix HEAD".toList ++ encodePktLine "ref-prefix refs/heads/".toList ++ flushPkt

def fetchTreesBody (commitOid : Str) : Bytes :=
  encodePktLine "command=fetch".toList ++ encodePktLine "agent=git-nfs".toList ++ delimPkt ++
    encodePktLine ("want ".toList ++ commitOid) ++ encodePktLine "deepen 1".toList ++
    encodePktLine "filter blob:none".toList ++ encodePktLine "done".toList ++ flushPkt

def fetchBlobsBody (blobOids : List Str) : Bytes :=
  encodePktLine "command=fetch".toList ++ encodePktLine "agent=git-nfs".toList ++ delimPkt ++
    (blobOids.flatMap fun oid => encodePktLine ("want ".toList ++ oid)) ++ encodePktLine "done".toList ++ flushPkt

/-- The pack of an answer. -/
def packOf : Except HttpError Bytes → Option (Outcome FetchError Bytes)
  | .error e => some (.err (.http e))
  | .ok response =>
    match extractPackFromSideband response with
    | none => none
    | some .panics => some .panics
    | some (.err e) => some (.err (.pkt e))
    | some (.ok pack) => some (.ok pack)

def fetchTreesPack (post : Post) (commitOid : Str) : Option (Outcome FetchError Bytes) :=
  packOf (post (fetchTreesBody commitOid))

def fetchBlobsPack (post : Post) (blobOids : List Str) : Option (Outcome FetchError Bytes) :=
  if blobOids = [] then some (.ok []) else packOf (post (fetchBlobsBody blobOids))

def fetchBlobPack (post : Post) (blobOid : Str) : Option (Outcome FetchError Bytes) := fetchBlobsPack post [blobOid]

/-- What is extracted from packets: their parts, if there is no error among them. -/
theorem extract_packets {packets : List SidePacket} (h : ∀ p ∈ packets, p.Fits) :
    ((∃ payload, .error payload ∈ packets) ∧
        ∃ e, extractPackFromSideband (stream (packets.map SidePacket.packet)) = some (.err e)) ∨
      (∀ payload, .error payload ∉ packets) ∧ (packets.flatMap SidePacket.part ≠ [] →
        extractPackFromSideband (stream (packets.map SidePacket.packet)) =
          some (.ok (packets.flatMap SidePacket.part))) := by
  have hfits : ∀ p ∈ packets.map SidePacket.packet, p.Fits := by
    intro p hp
    obtain ⟨q, hq, rfl⟩ := List.mem_map.mp hp
    exact (h q hq).packet
  unfold extractPackFromSideband
  rcases read_sidebands h [] with ⟨payload, hmem, hread⟩ | ⟨hnone, hread⟩
  · rw [pktLoop_stream_error hfits hread]
    exact .inl ⟨⟨payload, hmem⟩, _, rfl⟩
  · rw [pktLoop_stream hfits hread, List.nil_append]
    refine .inr ⟨hnone, fun hne => ?_⟩
    cases hpack : packets.flatMap SidePacket.part with
    | nil => exact absurd hpack hne
    | cons b pack => rfl

theorem want_fits {oid : Str} (h : IsOid oid) : (PktItem.line ("want ".toList ++ oid)).Fits := by
  constructor
  · intro hlast
    rw [List.getLast?_append_of_ne_nil _ h.ne_nil] at hlast
    have hspace := h.not_whitespace '\n' (List.mem_of_getLast? hlast)
    exact absurd hspace (by decide)
  · rw [asBytes_append, List.length_append, h.line.2]
    decide

/-- The lines of a request for blobs, for a server that reads pkt-lines as the client does: one for each blob, in
their order. -/
theorem fetchBlobsBody_lines {blobOids : List Str} (h : ∀ oid ∈ blobOids, IsOid oid) :
    parsePktLines (fetchBlobsBody blobOids) = some (.ok (["command=fetch".toList, "agent=git-nfs".toList] ++
      blobOids.map (fun oid => "want ".toList ++ oid) ++ ["done".toList])) := by
  let items : List PktItem := [.line "command=fetch".toList, .line "agent=git-nfs".toList, .delim] ++
    blobOids.map (fun oid => PktItem.line ("want ".toList ++ oid)) ++ [.line "done".toList, .flush]
  have hbody : fetchBlobsBody blobOids = items.flatMap PktItem.bytes := by
    simp only [items, fetchBlobsBody, List.flatMap_append, List.flatMap_map, List.flatMap_cons, List.flatMap_nil,
      PktItem.bytes, List.append_assoc, List.append_nil]
  have hfits : ∀ item ∈ items, item.Fits := by
    intro item hitem
    simp only [items, List.mem_append, List.mem_cons, List.not_mem_nil, or_false, List.mem_map] at hitem
    rcases hitem with (hitem | ⟨oid, hoid, rfl⟩) | hitem
    · rcases hitem with rfl | rfl | rfl
      · exact ⟨by decide, by decide⟩
      · exact ⟨by decide, by decide⟩
      · trivial
    · exact want_fits (h oid hoid)
    · rcases hitem with rfl | rfl
      · exact ⟨by decide, by decide⟩
      · trivial
  rw [hbody, parsePktLines_items hfits]
  have hwants : (blobOids.map fun oid => PktItem.line ("want ".toList ++ oid)).filterMap PktItem.text? =
      blobOids.map fun oid => "want ".toList ++ oid := by
    rw [List.filterMap_map]
    exact congrFun List.filterMap_eq_map blobOids
  simp only [items, List.filterMap_append, hwants]
  rfl

end GitSmartHttpClient

/-! ## The start -/

/-- An engine that has not started. -/
def GitEngine.empty : GitEngine := ⟨fun _ => none, none, none, fun _ => none, fun _ => none, none, false⟩

/-- The packs of trees in the directory of the disk cache, by their commits. -/
abbrev TreePacks := Str → Option Bytes

def TreePacks.putTreePack (packs : TreePacks) (commitOid : Str) (pack : Bytes) : Option PutFault → TreePacks
  | none => Function.update packs commitOid (some pack)
  | some .refused => packs
  | some (.torn n) => Function.update packs commitOid (some (pack.take n))

inductive HttpInitError where
  | request (e : HttpError)
  | head (e : GitSmartHttpClient.HeadError)
  | fetch (e : FetchError)
  | unpack (e : PackError)
  | noRootTree (commitOid : Str)

namespace GitEngine

/-- The pack that is on the disk, or else the one that is fetched and kept, which may fail. -/
def loadTreePack (post : Post) (fault : Option PutFault) (packs : TreePacks) (commitOid : Str) :
    Option (Outcome FetchError Bytes × TreePacks) :=
  match packs commitOid with
  | some cachedPack => some (.ok cachedPack, packs)
  | none =>
    match GitSmartHttpClient.fetchTreesPack post commitOid with
    | none => none
    | some (.ok pack) => some (.ok pack, packs.putTreePack commitOid pack fault)
    | some fetched => some (fetched, packs)

/-- The trees of a pack, each under the id of its bytes. -/
def takeTrees (objects : Str → Option GitRawObject) (trees : Str → Option GitTree) (oid : Str) : Option GitTree :=
  match objects oid with
  | some obj =>
    if obj.objType = .tree then (GitTree.parse obj.data).toOption.or (trees oid) else trees oid
  | none => trees oid

def unpackTrees (inflate : Bytes → Option (Bytes × Nat)) (commitOid : Str) (pack : Bytes) (g : GitEngine) :
    Outcome HttpInitError Str × GitEngine :=
  match unpackPackfile inflate pack with
  | .error e => (.err (.unpack e), g)
  | .ok objects =>
    let g := { g with trees := takeTrees objects g.trees }
    match (objects commitOid).bind fun commitObj => treeLine (fromUtf8Lossy commitObj.data) with
    | none => (.err (.noRootTree commitOid), g)
    | some rootOid => (.ok rootOid, { g with rootTreeOid := some rootOid })

/-- `GitEngine::initialize` over HTTP. -/
def initializeHttp (inflate : Bytes → Option (Bytes × Nat)) (post : Post) (branch : Option Str)
    (fault : Option PutFault) (packs : TreePacks) (g : GitEngine) :
    Option (Outcome HttpInitError Str × GitEngine × TreePacks) :=
  match post GitSmartHttpClient.lsRefsBody with
  | .error e => some (.err (.request e), g, packs)
  | .ok response =>
    match GitSmartHttpClient.resolveHead response branch with
    | none => none
    | some .panics => some (.panics, g, packs)
    | some (.err e) => some (.err (.head e), g, packs)
    | some (.ok (commitOid, _)) =>
      let g := { g with commitOid := some commitOid }
      match loadTreePack post fault packs commitOid with
      | none => none
      | some (.panics, packs) => some (.panics, g, packs)
      | some (.err e, packs) => some (.err (.fetch e), g, packs)
      | some (.ok pack, packs) =>
        let (res, g) := unpackTrees inflate commitOid pack g
        some (res, g, packs)

end GitEngine

/-! ## The files of a repository -/

/-- An engine with every tree of a repository. -/
def GitEngine.ofContent (content : Str → Option Bytes) : GitEngine :=
  ⟨readTree content, none, none, content, fun _ => none, none, false⟩

namespace GitEngine

variable {g₁ g₂ : GitEngine}

/-- What an engine shows below a tree another engine shows that has every tree of it. -/
theorem fileIn_of_trees {P : Str → Prop}
    (hsub : ∀ oid, P oid → ∀ t, g₁.getTree oid = some t → g₂.getTree oid = some t)
    (hbelow : ∀ oid, P oid → ∀ t, g₂.getTree oid = some t → ∀ e ∈ t.entries, e.mode.isDir = true → P e.oid)
    {oid : Str} (hoid : P oid) {path : List Str} {file : TreeEntryMode × Str} (h : g₁.fileIn oid path = some file) :
    g₂.fileIn oid path = some file := by
  induction path generalizing oid with
  | nil => cases h
  | cons name path ih =>
    unfold fileIn at h ⊢
    by_cases hdots : isDots name = true
    · rw [if_pos hdots] at h
      cases h
    rw [if_neg hdots] at h ⊢
    cases ht : g₁.getTree oid with
    | none =>
      unfold VfsManager.treeEntries at h
      rw [ht] at h
      cases h
    | some t =>
      have ht₂ := hsub oid hoid t ht
      have hentries : VfsManager.treeEntries g₂ oid = VfsManager.treeEntries g₁ oid := by
        unfold VfsManager.treeEntries
        rw [ht, ht₂]
      rw [hentries]
      obtain ⟨e, he, hfile⟩ := Option.bind_eq_some_iff.mp h
      have hmem : e ∈ t.entries := by
        have hlast := (VfsManager.mem_of_lastEntry he).1
        unfold VfsManager.treeEntries at hlast
        rwa [ht] at hlast
      rw [he, Option.bind_some]
      by_cases hdir : e.mode.isDir = true
      · rw [if_pos hdir] at hfile ⊢
        exact ih (hbelow oid hoid t ht₂ e hmem hdir) hfile
      · rw [if_neg hdir] at hfile ⊢
        exact hfile

end GitEngine

theorem ofContent_getTree {content : Str → Option Bytes} {oid : Str} {t : GitTree} :
    (GitEngine.ofContent content).getTree oid = some t ↔
      ∃ data, content oid = some data ∧ GitTree.parse data = .ok t := GitEngine.readTree_eq_some

theorem InHierarchy.child {content : Str → Option Bytes} {rootOid oid : Str} (h : InHierarchy content rootOid oid)
    {t : GitTree} (ht : (GitEngine.ofContent content).getTree oid = some t) {e : GitTreeEntry} (he : e ∈ t.entries)
    (hdir : e.mode.isDir = true) : InHierarchy content rootOid e.oid := .entry h ht he hdir

/-- An engine with the whole hierarchy shows the files of the repository. -/
theorem GitEngine.HasHierarchy.fileIn {g : GitEngine} {content : Str → Option Bytes} {rootOid : Str}
    (h : g.HasHierarchy content rootOid) (path : List Str) :
    g.fileIn rootOid path = (GitEngine.ofContent content).fileIn rootOid path := by
  have hsame : ∀ oid, InHierarchy content rootOid oid → g.getTree oid = (GitEngine.ofContent content).getTree oid := by
    intro oid hoid
    obtain ⟨data, tree, hdata, hparse, htree⟩ := h oid hoid
    rw [htree, ofContent_getTree.mpr ⟨data, hdata, hparse⟩]
  apply Option.ext
  intro file
  constructor
  · apply GitEngine.fileIn_of_trees (fun oid hoid t ht => hsame oid hoid ▸ ht) (fun oid hoid t ht e he hdir => ?_) .root
    exact hoid.child ht he hdir
  · apply GitEngine.fileIn_of_trees (fun oid hoid t ht => hsame oid hoid ▸ ht) (fun oid hoid t ht e he hdir => ?_) .root
    exact hoid.child (hsame oid hoid ▸ ht) he hdir

/-! ## Whatever the server answers and the disk holds -/

/-- The objects of a repository have the ids of their bytes. -/
def Addressed (content : Str → Option Bytes) : Prop :=
  ∀ oid data, content oid = some data → ∃ t, computeGitSha1 t data = oid

/-- An object that was unpacked and one of the repository have one id only if they have the same bytes. -/
def Distinct (content : Str → Option Bytes) (objects : Str → Option GitRawObject) : Prop :=
  ∀ oid obj, objects oid = some obj → ∀ oid' data, content oid' = some data →
    ∀ t, computeGitSha1 obj.objType obj.data = computeGitSha1 t data → obj.data = data

section Start

variable {inflate : Bytes → Option (Bytes × Nat)} {post : Post} {branch : Option Str} {fault : Option PutFault}
  {packs packs' : TreePacks} {g g' : GitEngine} {rootOid : Str} {content : Str → Option Bytes}

theorem takeTrees_new {objects : Str → Option GitRawObject} {trees : Str → Option GitTree}
    (hnew : ∀ oid, trees oid = none) {oid : Str} {t : GitTree} :
    GitEngine.takeTrees objects trees oid = some t ↔
      ∃ obj, objects oid = some obj ∧ obj.objType = .tree ∧ GitTree.parse obj.data = .ok t := by
  unfold GitEngine.takeTrees
  rw [hnew]
  cases objects oid with
  | none => simp
  | some obj =>
    simp only [Option.or_none, Option.some.injEq, exists_eq_left']
    split_ifs with htree
    · cases GitTree.parse obj.data <;> simp [Except.toOption, htree]
    · simp [htree]

theorem loadTreePack_cases {commitOid : Str} {res : Outcome FetchError Bytes}
    (h : GitEngine.loadTreePack post fault packs commitOid = some (res, packs')) :
    (packs' = packs ∧ ∀ pack, res = .ok pack → packs commitOid = some pack) ∨
      ∃ pack, packs commitOid = none ∧ GitSmartHttpClient.fetchTreesPack post commitOid = some (.ok pack) ∧
        res = .ok pack ∧ packs' = packs.putTreePack commitOid pack fault := by
  unfold GitEngine.loadTreePack at h
  cases hcached : packs commitOid with
  | some cached =>
    simp only [hcached, Option.some.injEq, Prod.mk.injEq] at h
    obtain ⟨rfl, rfl⟩ := h
    exact .inl ⟨rfl, fun pack hpack => congrArg some (Outcome.ok.inj hpack)⟩
  | none =>
    simp only [hcached] at h
    split at h
    · cases h
    · rename_i pack hfetch
      simp only [Option.some.injEq, Prod.mk.injEq] at h
      obtain ⟨rfl, rfl⟩ := h
      exact .inr ⟨pack, rfl, hfetch, rfl, rfl⟩
    · rename_i hnot _
      simp only [Option.some.injEq, Prod.mk.injEq] at h
      obtain ⟨rfl, rfl⟩ := h
      exact .inl ⟨rfl, fun pack hpack => absurd hpack (hnot pack)⟩

/-- A start that returns a root: the refs, the commit, its pack, and what is taken from the pack. -/
theorem initializeHttp_ok
    (h : GitEngine.initializeHttp inflate post branch fault packs g = some (.ok rootOid, g', packs')) :
    ∃ response commitOid branchName pack objects commitObj, post GitSmartHttpClient.lsRefsBody = .ok response ∧
      GitSmartHttpClient.resolveHead response branch = some (.ok (commitOid, branchName)) ∧
      GitEngine.loadTreePack post fault packs commitOid = some (.ok pack, packs') ∧
      unpackPackfile inflate pack = .ok objects ∧ objects commitOid = some commitObj ∧
      treeLine (fromUtf8Lossy commitObj.data) = some rootOid ∧ g'.commitOid = some commitOid ∧
      g'.trees = GitEngine.takeTrees objects g.trees := by
  unfold GitEngine.initializeHttp at h
  split at h
  · simp at h
  rename_i response hpost
  split at h
  · simp at h
  · simp at h
  · simp at h
  rename_i commitOid branchName hhead
  simp only at h
  split at h
  · simp at h
  · simp at h
  · simp at h
  rename_i pack packs₁ hload
  simp only [Option.some.injEq, Prod.mk.injEq] at h
  obtain ⟨hres, hg, rfl⟩ := h
  unfold GitEngine.unpackTrees at hres hg
  cases hunpack : unpackPackfile inflate pack with
  | error e => simp [hunpack] at hres
  | ok objects =>
    simp only [hunpack] at hres hg
    cases hroot : (objects commitOid).bind fun commitObj => treeLine (fromUtf8Lossy commitObj.data) with
    | none => simp [hroot] at hres
    | some root =>
      simp only [hroot, Outcome.ok.injEq] at hres hg
      subst hres hg
      obtain ⟨commitObj, hobj, hline⟩ := Option.bind_eq_some_iff.mp hroot
      exact ⟨response, commitOid, branchName, pack, objects, commitObj, hpost, hhead, hload, hunpack, hobj, hline, rfl,
        rfl⟩

/-- Whatever the server answers and whatever the disk holds, an engine that starts names the root tree of its
commit and shows no file that is not a file of the commit. -/
theorem http_start_genuine (hnew : ∀ oid, g.trees oid = none) (hcontent : Addressed content)
    (hdistinct : ∀ commitOid pack packs' objects,
      GitEngine.loadTreePack post fault packs commitOid = some (.ok pack, packs') →
      unpackPackfile inflate pack = .ok objects → Distinct content objects)
    (h : GitEngine.initializeHttp inflate post branch fault packs g = some (.ok rootOid, g', packs'))
    {commitOid : Str} {data : Bytes} (hcommit : g'.commitOid = some commitOid)
    (hdata : content commitOid = some data) :
    treeLine (fromUtf8Lossy data) = some rootOid ∧
      (AllRead content content rootOid → ∀ path file,
        VfsManager.fileAt g' (VfsManager.new rootOid) path = some file →
        VfsManager.fileAt (GitEngine.ofContent content) (VfsManager.new rootOid) path = some file) := by
  obtain ⟨-, commitOid', -, pack, objects, commitObj, -, -, hload, hunpack, hobj, hline, hcommit', htrees⟩ :=
    initializeHttp_ok h
  rw [hcommit, Option.some.injEq] at hcommit'
  subst hcommit'
  obtain ⟨records, -, hnamed, -⟩ := unpackPackfile_sound hunpack
  have hdiff := hdistinct commitOid pack packs' objects hload hunpack
  -- an object under an id of the repository is the object of the repository
  have hsame : ∀ oid obj data, objects oid = some obj → content oid = some data → obj.data = data := by
    intro oid obj data hobj hdata
    obtain ⟨t, ht⟩ := hcontent oid data hdata
    exact hdiff oid obj hobj oid data hdata t ((hnamed oid obj hobj).1.trans ht.symm)
  constructor
  · rw [← hsame commitOid commitObj data hobj hdata]
    exact hline
  · intro hall path file hfile
    rw [VfsManager.fileAt_new] at hfile ⊢
    refine GitEngine.fileIn_of_trees (P := InHierarchy content rootOid) (fun oid hoid t ht => ?_)
      (fun oid hoid t ht e he hdir => hoid.child ht he hdir) .root hfile
    unfold GitEngine.getTree at ht
    rw [htrees] at ht
    obtain ⟨obj, hobj, -, hparse⟩ := (takeTrees_new hnew).mp ht
    obtain ⟨d, tree, hd, hparse'⟩ := hall oid hoid
    rw [hsame oid obj d hobj hd] at hparse
    exact ofContent_getTree.mpr ⟨d, hd, hparse⟩

/-! ### A commit with one file -/

def servedRaw : Bytes := rawEntry .regularFile ['f'] (List.replicate 20 3)

def servedRoot : Str := computeGitSha1 .tree servedRaw

def servedCommitRaw : Bytes := asBytes ("tree ".toList ++ servedRoot ++ ['\n'])

def servedCommit : Str := computeGitSha1 .commit servedCommitRaw

def served : List GitObjectToPack := [⟨servedCommit, .commit, servedCommitRaw⟩, ⟨servedRoot, .tree, servedRaw⟩]

def servedContent (oid : Str) : Option Bytes :=
  if oid = servedCommit then some servedCommitRaw else if oid = servedRoot then some servedRaw else none

def servedPack : Bytes := packHeader 2 ++ served.flatMap (packRecord zlibStored) ++ List.replicate 20 0

def servedObjects (oid : Str) : Option GitRawObject :=
  if oid = servedRoot then some ⟨.tree, servedRaw⟩
  else if oid = servedCommit then some ⟨.commit, servedCommitRaw⟩ else none

def servedRefs : List (Str × Str) := [("refs/heads/main".toList, servedCommit), ("HEAD".toList, servedCommit)]

/-- A server that has the refs, and this answer to whatever else it is asked. -/
def servedPost (trees : Except HttpError Bytes) (body : Bytes) : Except HttpError Bytes :=
  if body = GitSmartHttpClient.lsRefsBody then .ok (RefState.advertisement servedRefs) else trees

def servedAnswer : Except HttpError Bytes := .ok (stream ([SidePacket.pack servedPack].map SidePacket.packet))

/-- The objects are there without the checksum. -/
theorem served_unpacks (sha : Bytes) :
    unpackPackfile inflateStored (packHeader 2 ++ served.flatMap (packRecord zlibStored) ++ sha) =
      .ok servedObjects := by
  have hunpack := unpackPackfile_pack zlibStored inflateStored served (by decide) sha
    (by simp [served, ObjectType.Plain]) fun obj hobj rest => ?_
  · refine hunpack.trans (congrArg Except.ok (funext fun oid => ?_))
    simp only [served, List.foldl_cons, List.foldl_nil, Function.update_apply]
    rfl
  · refine inflateStored_zlibStored _ rest ?_
    simp only [served, List.mem_cons, List.not_mem_nil, or_false] at hobj
    rcases hobj with rfl | rfl <;> decide +kernel

theorem servedContent_addressed : Addressed servedContent := by
  intro oid data hdata
  unfold servedContent at hdata
  split_ifs at hdata with hcommit hroot
  · exact ⟨.commit, by rw [← Option.some.inj hdata, hcommit]; rfl⟩
  · exact ⟨.tree, by rw [← Option.some.inj hdata, hroot]; rfl⟩

theorem servedObjects_distinct : Distinct servedContent servedObjects := by
  have hroot : ∀ t ∈ [ObjectType.commit, .tree, .blob, .tag, .ofsDelta, .refDelta],
      servedRoot ≠ computeGitSha1 t servedCommitRaw ∧ servedCommit ≠ computeGitSha1 t servedRaw := by decide +kernel
  intro oid obj hobj oid' data hdata t ht
  have hdiff := hroot t (by cases t <;> simp)
  unfold servedObjects at hobj
  unfold servedContent at hdata
  split_ifs at hobj hdata <;> rw [← Option.some.inj hobj] at ht ⊢ <;> rw [← Option.some.inj hdata] at ht ⊢
  · exact absurd ht hdiff.1
  · exact absurd ht hdiff.2

theorem fetchTreesBody_ne (commitOid : Str) :
    GitSmartHttpClient.fetchTreesBody commitOid ≠ GitSmartHttpClient.lsRefsBody := by
  intro h
  have hlength := congrArg (List.take 4) h
  unfold GitSmartHttpClient.fetchTreesBody GitSmartHttpClient.lsRefsBody at hlength
  simp only [List.append_assoc] at hlength
  rw [List.take_append_of_le_length (by decide), List.take_append_of_le_length (by decide)] at hlength
  exact absurd hlength (by decide)

theorem served_fits : ∀ p ∈ [SidePacket.pack servedPack], p.Fits := by
  intro p hp
  obtain rfl := List.mem_singleton.mp hp
  show (1 :: servedPack).length + 4 < 16 ^ 4
  decide +kernel

theorem servedAnswer_fetched (commitOid : Str) :
    GitSmartHttpClient.fetchTreesPack (servedPost servedAnswer) commitOid = some (.ok servedPack) := by
  unfold GitSmartHttpClient.fetchTreesPack servedPost
  rw [if_neg (fetchTreesBody_ne commitOid)]
  obtain ⟨⟨payload, hmem⟩, -⟩ | ⟨-, hpack⟩ := GitSmartHttpClient.extract_packets served_fits
  · cases List.mem_singleton.mp hmem
  · have hparts : [SidePacket.pack servedPack].flatMap SidePacket.part = servedPack := List.flatMap_singleton _ _
    rw [hparts] at hpack
    unfold GitSmartHttpClient.packOf servedAnswer
    simp only [hpack (by decide)]

/-- A start at the commit that loads its pack, or a part of it that is enough. -/
theorem served_starts {trees : Except HttpError Bytes} {branch : Option Str} {fault : Option PutFault}
    {packs packs' : TreePacks} {pack : Bytes} (hbranch : branch = none ∨ branch = some "main".toList)
    (hload : GitEngine.loadTreePack (servedPost trees) fault packs servedCommit = some (.ok pack, packs'))
    (hunpack : unpackPackfile inflateStored pack = .ok servedObjects) :
    ∃ g', GitEngine.initializeHttp inflateStored (servedPost trees) branch fault packs .empty =
      some (.ok servedRoot, g', packs') ∧ g'.commitOid = some servedCommit := by
  have hhead : GitSmartHttpClient.resolveHead (RefState.advertisement servedRefs) branch =
      some (.ok (servedCommit, "main".toList)) := by
    rcases hbranch with rfl | rfl <;> decide +kernel
  have hobj : servedObjects servedCommit = some ⟨.commit, servedCommitRaw⟩ := by decide +kernel
  have hroot : treeLine (fromUtf8Lossy servedCommitRaw) = some servedRoot := by decide +kernel
  unfold GitEngine.initializeHttp GitEngine.unpackTrees
  simp only [servedPost, if_true, hhead]
  simp only [hload, hunpack, hobj, Option.bind_some, hroot]
  exact ⟨_, rfl, rfl⟩

theorem http_start_genuine_served :
    ∃ g' packs', GitEngine.initializeHttp inflateStored (servedPost servedAnswer) none none (fun _ => none) .empty =
      some (.ok servedRoot, g', packs') ∧ treeLine (fromUtf8Lossy servedCommitRaw) = some servedRoot ∧
      (AllRead servedContent servedContent servedRoot → ∀ path file,
        VfsManager.fileAt g' (VfsManager.new servedRoot) path = some file →
        VfsManager.fileAt (GitEngine.ofContent servedContent) (VfsManager.new servedRoot) path = some file) := by
  have hload : GitEngine.loadTreePack (servedPost servedAnswer) none (fun _ => none) servedCommit =
      some (.ok servedPack, TreePacks.putTreePack (fun _ => none) servedCommit servedPack none) := by
    unfold GitEngine.loadTreePack
    simp only [servedAnswer_fetched]
  obtain ⟨g', hstart, hcommit⟩ := served_starts (.inl rfl) hload (served_unpacks _)
  refine ⟨g', _, hstart, http_start_genuine (fun _ => rfl) servedContent_addressed
    (fun commitOid pack packs' objects hload' hunpack => ?_) hstart hcommit (if_pos rfl)⟩
  rcases loadTreePack_cases hload' with ⟨-, hcached⟩ | ⟨fetched, -, hfetch, hsame, -⟩
  · cases hcached pack rfl
  · rw [servedAnswer_fetched, Option.some.injEq, Outcome.ok.injEq] at hfetch
    obtain rfl := Outcome.ok.inj hsame
    rw [← hfetch, show unpackPackfile inflateStored servedPack = .ok servedObjects from served_unpacks _,
      Except.ok.injEq] at hunpack
    exact hunpack ▸ servedObjects_distinct

end Start

end GitNfs
