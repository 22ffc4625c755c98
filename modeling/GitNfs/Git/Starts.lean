import GitNfs.Git.Fetch
import GitNfs.Git.PackCut

/-! # Starts with one disk cache

Engines start one after the other, each on the packs that the starts before it have kept. A write that was cut
off may make a start fail; it does not make an engine that starts show less than the commit has.
-/

namespace GitNfs

open GitSmartHttpClient (fetchTreesBody fetchTreesPack)

/-! ## A server that has the repository -/

/-- The objects have the commit and the trees that it leads to, as they are in the repository. -/
structure CarriedBy (content : Str → Option Bytes) (commitOid rootOid : Str) (objects : Str → Option GitRawObject) :
    Prop where
  commit : ∃ obj, objects commitOid = some obj ∧ content commitOid = some obj.data ∧
    treeLine (fromUtf8Lossy obj.data) = some rootOid
  trees : ∀ oid, InHierarchy content rootOid oid → ∃ obj tree, objects oid = some obj ∧ obj.objType = .tree ∧
    content oid = some obj.data ∧ GitTree.parse obj.data = .ok tree

def Carries (inflate : Bytes → Option (Bytes × Nat)) (content : Str → Option Bytes) (commitOid : Str) (pack : Bytes) :
    Prop :=
  ∃ objects rootOid, unpackPackfile inflate pack = .ok objects ∧ CarriedBy content commitOid rootOid objects

/-- Asked for the trees of a commit, the server sends nothing that arrives, or packets with an error or with a
pack, cut anyhow. -/
def AnswersTrees (inflate : Bytes → Option (Bytes × Nat)) (content : Str → Option Bytes) (post : Post)
    (commitOid : Str) : Prop :=
  (∃ e, post (fetchTreesBody commitOid) = .error e) ∨
    ∃ packets : List SidePacket, (∀ p ∈ packets, p.Fits) ∧
      post (fetchTreesBody commitOid) = .ok (stream (packets.map SidePacket.packet)) ∧
      ((∃ payload, .error payload ∈ packets) ∨ Carries inflate content commitOid (packets.flatMap SidePacket.part))

variable {inflate : Bytes → Option (Bytes × Nat)} {content : Str → Option Bytes} {post : Post}
  {fault : Option PutFault} {packs packs' : TreePacks}

theorem Carries.nonempty {commitOid : Str} {pack : Bytes} (h : Carries inflate content commitOid pack) : pack ≠ [] := by
  obtain ⟨objects, rootOid, hunpack, -⟩ := h
  rintro rfl
  cases hunpack

/-- A pack that is fetched from a server with the repository carries the commit. -/
theorem AnswersTrees.fetched {commitOid : Str} (h : AnswersTrees inflate content post commitOid) {pack : Bytes}
    (hfetch : fetchTreesPack post commitOid = some (.ok pack)) : Carries inflate content commitOid pack := by
  unfold fetchTreesPack GitSmartHttpClient.packOf at hfetch
  rcases h with ⟨e, he⟩ | ⟨packets, hfits, hpost, hanswer⟩
  · simp [he] at hfetch
  · rw [hpost] at hfetch
    simp only at hfetch
    rcases GitSmartHttpClient.extract_packets hfits with ⟨-, e, he⟩ | ⟨hnone, hpack⟩
    · simp [he] at hfetch
    · rcases hanswer with ⟨payload, hmem⟩ | hcarries
      · exact absurd hmem (hnone payload)
      · rw [hpack hcarries.nonempty] at hfetch
        simp only [Option.some.injEq, Outcome.ok.injEq] at hfetch
        exact hfetch ▸ hcarries

/-! ## What is kept -/

structure HttpStart where
  post : Post
  branch : Option Str
  fault : Option PutFault

/-- The commit that the server has for the branch. -/
def HttpStart.Resolves (s : HttpStart) (commitOid : Str) : Prop :=
  ∃ response branchName, s.post GitSmartHttpClient.lsRefsBody = .ok response ∧
    GitSmartHttpClient.resolveHead response s.branch = some (.ok (commitOid, branchName))

/-- The server has the repository, and a write that is cut off is not cut off inside the last object. -/
structure HttpStart.Honest (inflate : Bytes → Option (Bytes × Nat)) (content : Str → Option Bytes) (s : HttpStart) :
    Prop where
  answers : ∀ commitOid, s.Resolves commitOid → AnswersTrees inflate content s.post commitOid
  beside : ∀ n, s.fault = some (.torn n) → ∀ commitOid pack, fetchTreesPack s.post commitOid = some (.ok pack) →
    CutBeside inflate pack n

/-- What a start leaves on the disk. -/
def startHttp (inflate : Bytes → Option (Bytes × Nat)) (packs : TreePacks) (s : HttpStart) : Option TreePacks :=
  (GitEngine.initializeHttp inflate s.post s.branch s.fault packs .empty).map fun r => r.2.2

/-- A pack that carries a commit, or what a cut left of it. -/
def LeftOf (inflate : Bytes → Option (Bytes × Nat)) (content : Str → Option Bytes) (commitOid : Str) (pack : Bytes) :
    Prop :=
  ∃ whole, Carries inflate content commitOid whole ∧
    (pack = whole ∨ ∃ n, pack = whole.take n ∧ CutBeside inflate whole n)

def TreePacks.Kept (inflate : Bytes → Option (Bytes × Nat)) (content : Str → Option Bytes) (packs : TreePacks) : Prop :=
  ∀ commitOid pack, packs commitOid = some pack → LeftOf inflate content commitOid pack

theorem initializeHttp_packs {s : HttpStart} {g g' : GitEngine} {res : Outcome HttpInitError Str}
    (h : GitEngine.initializeHttp inflate s.post s.branch s.fault packs g = some (res, g', packs')) :
    packs' = packs ∨ ∃ commitOid loaded, s.Resolves commitOid ∧
      GitEngine.loadTreePack s.post s.fault packs commitOid = some (loaded, packs') := by
  unfold GitEngine.initializeHttp at h
  split at h
  · simp only [Option.some.injEq, Prod.mk.injEq] at h
    exact .inl h.2.2.symm
  rename_i response hpost
  split at h
  · cases h
  · simp only [Option.some.injEq, Prod.mk.injEq] at h
    exact .inl h.2.2.symm
  · simp only [Option.some.injEq, Prod.mk.injEq] at h
    exact .inl h.2.2.symm
  rename_i commitOid branchName hhead
  simp only at h
  split at h
  · cases h
  all_goals
    rename_i hload
    simp only [Option.some.injEq, Prod.mk.injEq] at h
    obtain ⟨-, -, rfl⟩ := h
    exact .inr ⟨commitOid, _, ⟨response, branchName, hpost, hhead⟩, hload⟩

namespace TreePacks.Kept

theorem putTreePack (h : packs.Kept inflate content) {commitOid : Str} {pack : Bytes}
    (hcarries : Carries inflate content commitOid pack)
    (hbeside : ∀ n, fault = some (.torn n) → CutBeside inflate pack n) :
    (packs.putTreePack commitOid pack fault).Kept inflate content := by
  intro oid kept hkept
  unfold TreePacks.putTreePack at hkept
  cases hfault : fault with
  | none =>
    simp only [hfault, Function.update_apply] at hkept
    split_ifs at hkept with hoid
    · subst hoid
      exact ⟨pack, hcarries, .inl (Option.some.inj hkept).symm⟩
    · exact h oid kept hkept
  | some f =>
    cases f with
    | refused =>
      simp only [hfault] at hkept
      exact h oid kept hkept
    | torn n =>
      simp only [hfault, Function.update_apply] at hkept
      split_ifs at hkept with hoid
      · subst hoid
        exact ⟨pack, hcarries, .inr ⟨n, (Option.some.inj hkept).symm, hbeside n hfault⟩⟩
      · exact h oid kept hkept

/-- The pack that a start takes. -/
theorem load (h : packs.Kept inflate content) {s : HttpStart} (hs : s.Honest inflate content) {commitOid : Str}
    (hresolves : s.Resolves commitOid) {res : Outcome FetchError Bytes}
    (hload : GitEngine.loadTreePack s.post s.fault packs commitOid = some (res, packs')) :
    packs'.Kept inflate content ∧ ∀ pack, res = .ok pack → LeftOf inflate content commitOid pack := by
  rcases loadTreePack_cases hload with ⟨rfl, hcached⟩ | ⟨pack, -, hfetch, rfl, rfl⟩
  · exact ⟨h, fun pack hpack => h commitOid pack (hcached pack hpack)⟩
  · have hcarries := (hs.answers commitOid hresolves).fetched hfetch
    refine ⟨h.putTreePack hcarries fun n hn => hs.beside n hn commitOid pack hfetch, fun pack' hpack => ?_⟩
    exact ⟨pack, hcarries, .inl (Outcome.ok.inj hpack).symm⟩

theorem start (h : packs.Kept inflate content) {s : HttpStart} (hs : s.Honest inflate content)
    (hstart : startHttp inflate packs s = some packs') : packs'.Kept inflate content := by
  obtain ⟨⟨res, g', packs''⟩, hinit, rfl⟩ := Option.map_eq_some_iff.mp hstart
  rcases initializeHttp_packs hinit with rfl | ⟨commitOid, loaded, hresolves, hload⟩
  · exact h
  · exact (h.load hs hresolves hload).1

theorem run {starts : List HttpStart} (hstarts : ∀ s ∈ starts, s.Honest inflate content)
    (hrun : Run.run (startHttp inflate) (fun _ => none) starts = some packs) : packs.Kept inflate content := by
  have hstep : ∀ (packs : TreePacks) (s : HttpStart) (packs' : TreePacks), packs.Kept inflate content →
      s.Honest inflate content → startHttp inflate packs s = some packs' → packs'.Kept inflate content :=
    fun _ _ _ h hs hstart => h.start hs hstart
  exact Run.invariant hstep (Run.meets_of_mem _ hstarts) hrun fun _ _ hpack => by cases hpack

end TreePacks.Kept

/-- What is unpacked of a pack with the commit, or of what is left of one, carries the commit. -/
theorem LeftOf.unpack (hinflate : Inflates inflate) (htakes : TakesAll inflate) {commitOid : Str} {pack : Bytes}
    (h : LeftOf inflate content commitOid pack) {objects : Str → Option GitRawObject}
    (hunpack : unpackPackfile inflate pack = .ok objects) : ∃ rootOid, CarriedBy content commitOid rootOid objects := by
  obtain ⟨whole, ⟨objects', rootOid, hwhole, hcarried⟩, rfl | ⟨n, rfl, hcut⟩⟩ := h
  · rw [hwhole, Except.ok.injEq] at hunpack
    exact ⟨rootOid, hunpack ▸ hcarried⟩
  · rw [unpackPackfile_take hinflate htakes hwhole hcut hunpack]
    exact ⟨rootOid, hcarried⟩

/-- Every engine that starts, after any starts on the same disk, has all the trees of its commit: whichever answers
failed, however the packs were cut into packets, and whatever a write that failed or was cut off left behind. -/
theorem http_starts_complete (hinflate : Inflates inflate) (htakes : TakesAll inflate) {starts : List HttpStart}
    (hstarts : ∀ s ∈ starts, s.Honest inflate content)
    (hrun : Run.run (startHttp inflate) (fun _ => none) starts = some packs) {s : HttpStart}
    (hs : s.Honest inflate content) {g g' : GitEngine} (hnew : ∀ oid, g.trees oid = none) {rootOid : Str}
    (h : GitEngine.initializeHttp inflate s.post s.branch s.fault packs g = some (.ok rootOid, g', packs')) :
    ∃ commitOid data, g'.commitOid = some commitOid ∧ content commitOid = some data ∧
      treeLine (fromUtf8Lossy data) = some rootOid ∧ g'.HasHierarchy content rootOid := by
  have hkept := TreePacks.Kept.run hstarts hrun
  obtain ⟨response, commitOid, branchName, pack, objects, commitObj, hpost, hhead, hload, hunpack, hobj, hline, hcommit,
    htrees⟩ := initializeHttp_ok h
  have hleft := (hkept.load hs ⟨response, branchName, hpost, hhead⟩ hload).2 pack rfl
  obtain ⟨root, hcarried⟩ := hleft.unpack hinflate htakes hunpack
  obtain ⟨obj, hobj', hdata, hroot⟩ := hcarried.commit
  rw [hobj, Option.some.injEq] at hobj'
  subst hobj'
  rw [hline, Option.some.injEq] at hroot
  subst hroot
  refine ⟨commitOid, commitObj.data, hcommit, hdata, hline, fun oid hoid => ?_⟩
  obtain ⟨obj, tree, hobj', htree, hcontent, hparse⟩ := hcarried.trees oid hoid
  refine ⟨obj.data, tree, hcontent, hparse, ?_⟩
  unfold GitEngine.getTree
  rw [htrees]
  exact (takeTrees_new hnew).mpr ⟨obj, hobj', htree, hparse⟩

/-! ## A pack that stays -/

theorem loadTreePack_kept {commitOid oid : Str} {kept : Bytes} (h : packs commitOid = some kept)
    {res : Outcome FetchError Bytes} (hload : GitEngine.loadTreePack post fault packs oid = some (res, packs')) :
    packs' commitOid = some kept := by
  rcases loadTreePack_cases hload with ⟨rfl, -⟩ | ⟨pack, hnone, -, -, rfl⟩
  · exact h
  · have hother : commitOid ≠ oid := by
      rintro rfl
      rw [h] at hnone
      cases hnone
    unfold TreePacks.putTreePack
    split
    · rw [Function.update_of_ne hother, h]
    · exact h
    · rw [Function.update_of_ne hother, h]

/-- No start replaces a pack. -/
theorem startHttp_kept {commitOid : Str} {kept : Bytes} (h : packs commitOid = some kept) {starts : List HttpStart}
    (hrun : Run.run (startHttp inflate) packs starts = some packs') : packs' commitOid = some kept := by
  have hstep : ∀ (packs : TreePacks) (s : HttpStart) (packs' : TreePacks), packs commitOid = some kept →
      True → startHttp inflate packs s = some packs' → packs' commitOid = some kept := by
    intro packs s packs' h _ hstart
    obtain ⟨⟨res, g', packs''⟩, hinit, rfl⟩ := Option.map_eq_some_iff.mp hstart
    rcases initializeHttp_packs hinit with rfl | ⟨oid, loaded, -, hload⟩
    · exact h
    · exact loadTreePack_kept h hload
  exact Run.invariant hstep (Run.meets_true _ _ _) hrun h

/-- A start at a commit with a kept pack. -/
theorem initializeHttp_kept {s : HttpStart} {commitOid : Str} (hs : s.Resolves commitOid) {kept : Bytes}
    (h : packs commitOid = some kept) (g : GitEngine) :
    ∃ res g', GitEngine.initializeHttp inflate s.post s.branch s.fault packs g = some (res, g', packs) ∧
      ∀ rootOid, res = .ok rootOid ↔ ∃ objects, unpackPackfile inflate kept = .ok objects ∧
        (objects commitOid).bind (fun obj => treeLine (fromUtf8Lossy obj.data)) = some rootOid := by
  obtain ⟨response, branchName, hpost, hhead⟩ := hs
  have hload : GitEngine.loadTreePack s.post s.fault packs commitOid = some (.ok kept, packs) := by
    unfold GitEngine.loadTreePack
    simp only [h]
  unfold GitEngine.initializeHttp
  simp only [hpost, hhead, hload]
  refine ⟨_, _, rfl, fun rootOid => ?_⟩
  unfold GitEngine.unpackTrees
  cases hunpack : unpackPackfile inflate kept with
  | error e => simp
  | ok objects =>
    cases hroot : (objects commitOid).bind fun obj => treeLine (fromUtf8Lossy obj.data) <;> simp [hroot]

/-- A commit whose pack was cut off beside its last object can be started at later, with any server and after any
starts, if and only if the last object is in front of the cut: what is left is never fetched again. -/
theorem later_start_iff (hinflate : Inflates inflate) (htakes : TakesAll inflate) {commitOid : Str} {whole : Bytes}
    (hwhole : Carries inflate content commitOid whole) {n : Nat} (hcut : CutBeside inflate whole n)
    (hkept : packs commitOid = some (whole.take n)) {starts : List HttpStart}
    (hrun : Run.run (startHttp inflate) packs starts = some packs') {s : HttpStart} (hs : s.Resolves commitOid)
    {records : List Placed} (hrecords : recordsOf inflate whole = .ok records) {p : Placed}
    (hlast : records.getLast? = some p) (g : GitEngine) :
    (∃ rootOid g' packs'', GitEngine.initializeHttp inflate s.post s.branch s.fault packs' g =
      some (.ok rootOid, g', packs'')) ↔ p.offset + p.used ≤ n := by
  obtain ⟨objects, rootOid, hunpack, hcarried⟩ := hwhole
  obtain ⟨res, g', hstart, hres⟩ := initializeHttp_kept hs (startHttp_kept hkept hrun) g
  constructor
  · rintro ⟨rootOid', g'', packs'', h⟩
    rw [hstart] at h
    obtain ⟨objects', hunpack', -⟩ := (hres rootOid').mp (Prod.mk.inj (Option.some.inj h)).1
    exact (unpackPackfile_take_iff hinflate htakes hunpack hrecords hlast hcut).mp ⟨objects', hunpack'⟩
  · intro hn
    obtain ⟨obj, hobj, -, hline⟩ := hcarried.commit
    have hleft := unpackPackfile_take_ok hinflate hunpack hrecords hlast hn
    have hok := (hres rootOid).mpr ⟨objects, hleft, by rw [hobj, Option.bind_some, hline]⟩
    exact ⟨rootOid, g', packs', by rw [hstart, hok]⟩

/-! ### A start whose write was cut off, and one without an answer -/

theorem takesAll_stored : TakesAll inflateStored := by
  intro s data n k h hk data' n' h'
  obtain ⟨front, behind, hfront, rfl, hall⟩ := inflateStored_front h'
  have hsame := hall (behind ++ s.drop k)
  rw [← List.append_assoc, ← hfront, List.take_append_drop, h] at hsame
  obtain ⟨-, rfl⟩ := Prod.mk.inj (Option.some.inj hsame)
  have hlen := congrArg List.length hfront
  rw [List.length_take, List.length_append] at hlen
  omega

theorem served_hierarchy {oid : Str} (h : InHierarchy servedContent servedRoot oid) : oid = servedRoot := by
  have hroot : TreeLoader.readTree servedContent servedRoot =
      some ⟨[⟨.regularFile, ['f'], hexEncode (List.replicate 20 3)⟩]⟩ := by decide +kernel
  induction h with
  | root => rfl
  | entry _ htree he hdir ih =>
    subst ih
    obtain rfl := Option.some.inj (hroot.symm.trans htree)
    rw [List.mem_singleton.mp he] at hdir
    cases hdir

theorem served_carries : Carries inflateStored servedContent servedCommit servedPack := by
  have hcommit : servedObjects servedCommit = some ⟨.commit, servedCommitRaw⟩ := by decide +kernel
  have htree : servedContent servedRoot = some servedRaw := by decide +kernel
  refine ⟨servedObjects, servedRoot, served_unpacks _, ⟨_, hcommit, if_pos rfl, by decide +kernel⟩, fun oid hoid => ?_⟩
  rw [served_hierarchy hoid]
  exact ⟨_, ⟨[⟨.regularFile, ['f'], hexEncode (List.replicate 20 3)⟩]⟩, if_pos rfl, rfl, htree, by decide +kernel⟩

theorem served_answers (commitOid : Str) (h : commitOid = servedCommit) :
    AnswersTrees inflateStored servedContent (servedPost servedAnswer) commitOid := by
  subst h
  refine .inr ⟨[SidePacket.pack servedPack], served_fits, ?_, .inr ?_⟩
  · unfold servedPost
    rw [if_neg (fetchTreesBody_ne _)]
    rfl
  · rw [List.flatMap_singleton]
    exact served_carries

theorem served_resolves {trees : Except HttpError Bytes} {branch : Option Str} {fault : Option PutFault}
    (hbranch : branch = none ∨ branch = some "main".toList) {commitOid : Str}
    (h : HttpStart.Resolves ⟨servedPost trees, branch, fault⟩ commitOid) : commitOid = servedCommit := by
  obtain ⟨response, branchName, hresponse, hhead⟩ := h
  obtain rfl := Except.ok.inj hresponse
  have hsame : GitSmartHttpClient.resolveHead (RefState.advertisement servedRefs) branch =
      some (.ok (servedCommit, "main".toList)) := by
    rcases hbranch with rfl | rfl <;> decide +kernel
  rw [hsame] at hhead
  simp only [Option.some.injEq, Outcome.ok.injEq, Prod.mk.injEq] at hhead
  exact hhead.1.symm

/-- The checksum is cut off. -/
def servedCut : Nat := servedPack.length - 20

theorem served_take : servedPack.take servedCut = packHeader 2 ++ served.flatMap (packRecord zlibStored) ++ [] := by
  unfold servedCut servedPack
  rw [List.length_append, List.length_replicate, Nat.add_sub_cancel, List.take_left, List.append_nil]

def cutStart : HttpStart := ⟨servedPost servedAnswer, none, some (.torn servedCut)⟩

def lostStart (branch : Option Str) : HttpStart := ⟨servedPost (.error .send), branch, none⟩

theorem cutStart_honest : cutStart.Honest inflateStored servedContent where
  answers := fun commitOid h => served_answers commitOid (served_resolves (.inl rfl) h)
  beside := fun n hn commitOid pack hfetch => by
    obtain rfl := PutFault.torn.inj (Option.some.inj hn)
    have hpack : pack = servedPack := by
      rw [show cutStart.post = servedPost servedAnswer from rfl, servedAnswer_fetched, Option.some.injEq,
        Outcome.ok.injEq] at hfetch
      exact hfetch.symm
    subst hpack
    have hlast : ((recordsOf inflateStored servedPack).toOption.all fun records =>
        records.getLast?.all fun p => decide (p.offset + p.used ≤ servedCut)) = true := by decide +kernel
    intro records p hrecords hp
    rw [hrecords] at hlast
    simp only [Except.toOption, Option.all_some, hp, decide_eq_true_eq] at hlast
    exact .inr hlast

theorem lostStart_honest (branch : Option Str) : (lostStart branch).Honest inflateStored servedContent where
  answers := fun commitOid h => by
    refine .inl ⟨.send, ?_⟩
    show servedPost (.error .send) (fetchTreesBody commitOid) = .error .send
    unfold servedPost
    rw [if_neg (fetchTreesBody_ne _)]
  beside := fun n hn => by cases hn

def cutPacks : TreePacks := Function.update (fun _ => none) servedCommit (some (servedPack.take servedCut))

theorem cutStart_leaves : startHttp inflateStored (fun _ => none) cutStart = some cutPacks := by
  have hload : GitEngine.loadTreePack (servedPost servedAnswer) (some (.torn servedCut)) (fun _ => none) servedCommit =
      some (.ok servedPack, cutPacks) := by
    unfold GitEngine.loadTreePack
    simp only [servedAnswer_fetched]
    rfl
  obtain ⟨g', hstart, -⟩ := served_starts (.inl rfl) hload (served_unpacks _)
  unfold startHttp
  rw [show GitEngine.initializeHttp inflateStored cutStart.post cutStart.branch cutStart.fault (fun _ => none)
    .empty = _ from hstart]
  rfl

theorem lostStart_starts {branch : Option Str} (hbranch : branch = none ∨ branch = some "main".toList) :
    ∃ g', GitEngine.initializeHttp inflateStored (lostStart branch).post (lostStart branch).branch
      (lostStart branch).fault cutPacks .empty = some (.ok servedRoot, g', cutPacks) := by
  have hload : GitEngine.loadTreePack (servedPost (.error .send)) none cutPacks servedCommit =
      some (.ok (servedPack.take servedCut), cutPacks) := by
    unfold GitEngine.loadTreePack cutPacks
    simp only [Function.update_self]
  obtain ⟨g', hstart, -⟩ := served_starts hbranch hload (served_take ▸ served_unpacks [])
  exact ⟨g', hstart⟩

theorem http_starts_complete_cut :
    ∃ g', GitEngine.initializeHttp inflateStored (lostStart none).post (lostStart none).branch (lostStart none).fault
        cutPacks .empty = some (.ok servedRoot, g', cutPacks) ∧
      ∃ commitOid data, g'.commitOid = some commitOid ∧ servedContent commitOid = some data ∧
        treeLine (fromUtf8Lossy data) = some servedRoot ∧ g'.HasHierarchy servedContent servedRoot := by
  obtain ⟨g', hstart⟩ := lostStart_starts (.inl rfl)
  have hrun : Run.run (startHttp inflateStored) (fun _ => none) [cutStart] = some cutPacks :=
    Run.run_cons.mpr ⟨cutPacks, cutStart_leaves, rfl⟩
  exact ⟨g', hstart, http_starts_complete inflates_stored takesAll_stored
    (fun s hs => List.mem_singleton.mp hs ▸ cutStart_honest) hrun (lostStart_honest none) (fun _ => rfl) hstart⟩

theorem later_start_iff_served : ∃ records p, recordsOf inflateStored servedPack = .ok records ∧
    records.getLast? = some p ∧
      ((∃ rootOid g' packs'', GitEngine.initializeHttp inflateStored (lostStart none).post (lostStart none).branch
          (lostStart none).fault cutPacks .empty = some (.ok rootOid, g', packs'')) ↔
        p.offset + p.used ≤ servedCut) := by
  have hrecords : ((recordsOf inflateStored servedPack).toOption.bind List.getLast?).isSome = true := by decide +kernel
  obtain ⟨p, hp⟩ := Option.isSome_iff_exists.mp hrecords
  obtain ⟨records, hok, hlast⟩ := Option.bind_eq_some_iff.mp hp
  have hread : recordsOf inflateStored servedPack = .ok records := by
    cases hall : recordsOf inflateStored servedPack with
    | error e => simp [hall, Except.toOption] at hok
    | ok records' =>
      rw [hall] at hok
      exact congrArg Except.ok (Option.some.inj hok)
  obtain ⟨g', hstart⟩ := lostStart_starts (.inl rfl)
  have hrun : Run.run (startHttp inflateStored) cutPacks [lostStart none] = some cutPacks :=
    Run.run_cons.mpr ⟨cutPacks, by unfold startHttp; rw [hstart]; rfl, rfl⟩
  exact ⟨records, p, hread, hlast, later_start_iff inflates_stored takesAll_stored served_carries
    (cutStart_honest.beside servedCut rfl servedCommit servedPack (servedAnswer_fetched _)) (Function.update_self ..)
    hrun ⟨_, "main".toList, rfl, by decide +kernel⟩ hread hlast .empty⟩

/-! ## Both back ends -/

/-- The commit of a start on a bucket. -/
theorem initializeGcs_commit {b : Bucket} {branch : Option Str} {read : Str → Option Bytes} {fuel : Nat}
    {g g' : GitEngine} {rootOid : Str} (h : GitEngine.initializeGcs b branch read fuel g = some (.ok rootOid, g')) :
    ∃ commitOid data, (b.resolveHead branch).toOption.map Prod.fst = some commitOid ∧
      g'.commitOid = some commitOid ∧ read commitOid = some data ∧ treeLine (fromUtf8Lossy data) = some rootOid := by
  unfold GitEngine.initializeGcs at h
  dsimp only at h
  split at h
  · simp at h
  rename_i commitOid branchName hhead
  split at h
  · simp at h
  rename_i data hdata
  split at h
  · simp at h
  rename_i root hroot
  split at h
  · simp at h
  · simp only [Option.some.injEq, Prod.mk.injEq, Except.ok.injEq] at h
    obtain ⟨rfl, rfl⟩ := h
    exact ⟨commitOid, data, by rw [hhead]; rfl, rfl, hdata, hroot⟩

/-- The trees of the hierarchy that were all read are all in the table. -/
theorem initializeGcs_hasHierarchy {b : Bucket} {branch : Option Str} {read : Str → Option Bytes} {fuel : Nat}
    {g g' : GitEngine} {rootOid : Str} (hread : ∀ oid data, read oid = some data → content oid = some data)
    (hnew : ∀ oid, g.trees oid = none) (h : GitEngine.initializeGcs b branch read fuel g = some (.ok rootOid, g'))
    (hall : AllRead read content rootOid) : g'.HasHierarchy content rootOid := by
  obtain ⟨-, htried⟩ := GitEngine.initializeGcs_trees hnew h
  have hsame : ∀ oid, InHierarchy content rootOid oid → ∃ data tree, content oid = some data ∧
      GitTree.parse data = .ok tree ∧ TreeLoader.readTree read oid = some tree ∧
      TreeLoader.readTree content oid = some tree := by
    intro oid hoid
    obtain ⟨data, tree, hdata, hparse⟩ := hall oid hoid
    have hcontent := hread oid data hdata
    exact ⟨data, tree, hcontent, hparse, GitEngine.readTree_eq_some.mpr ⟨data, hdata, hparse⟩,
      GitEngine.readTree_eq_some.mpr ⟨data, hcontent, hparse⟩⟩
  intro oid hoid
  obtain ⟨data, tree, hdata, hparse, htree, -⟩ := hsame oid hoid
  refine ⟨data, tree, hdata, hparse, ?_⟩
  rw [htried oid, htree]
  -- the way along the entries of the repository is a way along what was read
  clear hdata hparse htree
  induction hoid with
  | root => exact .refl
  | @entry x t e hx ht he hdir ih =>
    obtain ⟨-, t', -, -, hread', hcontent'⟩ := hsame x hx
    rw [ht, Option.some.injEq] at hcontent'
    subst hcontent'
    exact ih.tail (TreeLoader.mem_subtrees.mpr ⟨t, hread', e, he, hdir, rfl⟩)

def oneBranch : RefState := ⟨[("main".toList, servedCommit)], "main".toList⟩

def oneBranchBucket : Bucket :=
  Bucket.writeRapidObject
    (Bucket.writeRapidObject ∅ "HEAD".toList (asBytes ("ref: refs/heads/".toList ++ "main".toList ++ ['\n'])))
    (Bucket.branchRef "main".toList) (asBytes (servedCommit ++ ['\n']))

theorem oneBranch_valid : oneBranch.Valid := by
  refine ⟨by decide, fun r hr => ?_, fun r hr => ?_, by decide⟩
  · obtain rfl := List.mem_singleton.mp hr
    exact ⟨by decide, not_whitespace_of_all (by decide)⟩
  · obtain rfl := List.mem_singleton.mp hr
    exact computeGitSha1_isOid _ _

theorem oneBranch_advertised : oneBranch.Advertised servedRefs := by
  have hlength : (asBytes servedCommit).length = 40 := (computeGitSha1_isOid _ _).line.2
  refine ⟨List.Perm.swap _ _ _, fun r hr => ?_⟩
  have hname : (asBytes (' ' :: r.1)).length ≤ 16 := by
    rcases List.mem_pair.mp hr with rfl | rfl <;> decide
  have hoid : r.2 = servedCommit := by
    rcases List.mem_pair.mp hr with rfl | rfl <;> rfl
  rw [asBytes_append, List.length_append, hoid]
  omega

theorem oneBranch_stored : oneBranch.Stored oneBranchBucket [] := by
  have hlookup (branch : Str) : oneBranchBucket.lookup (Bucket.branchRef branch) =
      if branch = "main".toList then some (asBytes (servedCommit ++ ['\n'])) else none := by
    unfold oneBranchBucket Bucket.writeRapidObject
    split_ifs with hmain
    · rw [hmain, AList.lookup_insert]
    · rw [AList.lookup_insert_ne fun h => hmain (branchRef_inj.mp h),
        AList.lookup_insert_ne (head_ne_branchRef branch).symm]
      rfl
  have hcommit (branch : Str) :
      oneBranch.commit branch = if branch = "main".toList then some servedCommit else none := by
    unfold RefState.commit oneBranch
    rw [List.lookup_cons, List.lookup_nil]
    split_ifs with hmain
    · rw [beq_iff_eq.mpr hmain]
    · rw [beq_eq_false_iff_ne.mpr hmain]
  refine ⟨?_, .inr ⟨?_, rfl⟩, nofun, .nil, fun branch data hdata => ?_, fun branch oid hnone => ?_⟩
  · unfold oneBranchBucket Bucket.writeRapidObject
    rw [AList.lookup_insert_ne (by decide), AList.lookup_insert]
    rfl
  · unfold oneBranchBucket Bucket.writeRapidObject
    rw [AList.lookup_insert_ne (by decide), AList.lookup_insert_ne (by decide)]
    rfl
  · rw [hlookup] at hdata
    split_ifs at hdata with hmain
    exact ⟨servedCommit, by rw [hcommit, if_pos hmain], (Option.some.inj hdata).symm⟩
  · rw [hlookup] at hnone
    split_ifs at hnone with hmain
    rw [hcommit, if_neg hmain]
    exact iff_of_false nofun List.not_mem_nil

end GitNfs
