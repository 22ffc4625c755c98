import GitNfs.Git.OpenBucket
import GitNfs.Git.Starts
import GitNfs.Wal.Markers

/-! # What a start needs

A commit needs its trees and their files. A start finds them where the packs and the indexes of the bucket are
whole, and whatever HEAD and the refs name is a commit that all is there for.
-/

namespace GitNfs

/-! ## What a commit needs -/

def dataOf (content : Str → Option GitRawObject) (oid : Str) : Option Bytes := (content oid).map GitRawObject.data

/-- The commit is there and has a root, and all the trees below it can be parsed. -/
structure Whole (content : Str → Option GitRawObject) (commitOid rootOid : Str) : Prop where
  commit : ∃ obj, content commitOid = some obj ∧ treeLine (fromUtf8Lossy obj.data) = some rootOid
  trees : ∀ oid, InHierarchy (dataOf content) rootOid oid →
    ∃ data tree, dataOf content oid = some data ∧ GitTree.parse data = .ok tree

/-- The commit, the trees below its root, and their files. -/
inductive Needs (content : Str → Option GitRawObject) (commitOid : Str) : Str → Prop where
  | commit : Needs content commitOid commitOid
  | tree {rootOid oid : Str} : Whole content commitOid rootOid → InHierarchy (dataOf content) rootOid oid →
      Needs content commitOid oid
  | file {rootOid oid : Str} {tree : GitTree} {e : GitTreeEntry} : Whole content commitOid rootOid →
      InHierarchy (dataOf content) rootOid oid → TreeLoader.readTree (dataOf content) oid = some tree →
      e ∈ tree.entries → e.mode.isDir = false → e.mode ≠ .submodule → Needs content commitOid e.oid

/-- A hierarchy is the same for two readers that agree on it. -/
theorem inHierarchy_congr {read content : Str → Option Bytes} {rootOid : Str}
    (h : ∀ oid, InHierarchy content rootOid oid → read oid = content oid) {oid : Str} :
    InHierarchy read rootOid oid ↔ InHierarchy content rootOid oid := by
  have htree : ∀ {oid}, InHierarchy content rootOid oid →
      TreeLoader.readTree read oid = TreeLoader.readTree content oid := by
    intro oid hoid
    unfold TreeLoader.readTree
    rw [h oid hoid]
  constructor
  · intro hoid
    induction hoid with
    | root => exact .root
    | entry _ hread he hdir ih => exact .entry ih (htree ih ▸ hread) he hdir
  · intro hoid
    induction hoid with
    | root => exact .root
    | entry hin hread he hdir ih => exact .entry ih ((htree hin).trans hread) he hdir

namespace Bucket

/-- All that a commit needs is in the packs of the bucket. -/
structure Complete (inflate : Bytes → Option (Bytes × Nat)) (content : Str → Option GitRawObject) (b : Bucket)
    (commitOid : Str) : Prop where
  whole : ∃ rootOid, Whole content commitOid rootOid
  held : ∀ oid, Needs content commitOid oid → b.Holds inflate content oid

variable {inflate : Bytes → Option (Bytes × Nat)} {content : Str → Option GitRawObject} {b : Bucket}

theorem Complete.write {commitOid : Str} (h : b.Complete inflate content commitOid) {w : Str × Bytes}
    (hspares : b.Spares w) : (b.writeRapidObject w.1 w.2).Complete inflate content commitOid :=
  ⟨h.whole, fun oid hoid => (h.held oid hoid).write hspares⟩

/-- A server that starts on a complete commit loads all its trees and can read all its files. -/
theorem Complete.starts {commitOid : Str} (h : b.Complete inflate content commitOid) (hsound : b.Sound inflate content)
    (hinflate : Inflates inflate) {blocks : BlockCache} (hblocks : b.CachedTruly blocks) {branch : Option Str}
    {name : Str} (hhead : b.resolveHead branch = .ok (commitOid, name)) :
    ∃ s, PackReader.openBucket blocks b = .ok s ∧
      (∀ oid, Needs content commitOid oid →
        ∃ obj fuel, content oid = some obj ∧ s.readObjectRaw inflate fuel oid = some (.ok obj)) ∧
      ∃ rootOid n, Whole content commitOid rootOid ∧ ∀ waves, n ≤ waves → ∀ g : GitEngine, (∀ oid, g.trees oid = none) →
        ∃ g', GitEngine.initializeGcs b branch (s.answer inflate) waves g = some (.ok rootOid, g') ∧
          g'.commitOid = some commitOid ∧ g'.HasHierarchy (dataOf content) rootOid := by
  obtain ⟨s, hopen, hreads⟩ := PackReader.openBucket_reads hsound hinflate hblocks
  have hneeds : ∀ oid, Needs content commitOid oid →
      ∃ obj fuel, content oid = some obj ∧ s.readObjectRaw inflate fuel oid = some (.ok obj) :=
    fun oid hoid => hreads oid (h.held oid hoid)
  have hanswer : ∀ oid, Needs content commitOid oid → s.answer inflate oid = dataOf content oid := by
    intro oid hoid
    obtain ⟨obj, fuel, hcontent, hfuel⟩ := hneeds oid hoid
    rw [PackReader.answer_eq hfuel, dataOf, hcontent, Option.map_some]
  obtain ⟨rootOid, hwhole⟩ := h.whole
  refine ⟨s, hopen, hneeds, rootOid, ?_⟩
  have hagree : ∀ oid, InHierarchy (dataOf content) rootOid oid → s.answer inflate oid = dataOf content oid :=
    fun oid hoid => hanswer oid (.tree hwhole hoid)
  obtain ⟨n, hn⟩ := GitEngine.initializeGcs_isSome b branch (s.answer inflate)
  refine ⟨n, hwhole, ?_⟩
  intro waves hwaves g hnew
  obtain ⟨⟨res, g'⟩, hrun⟩ := Option.isSome_iff_exists.mp (hn waves hwaves g)
  have hok : res = .ok rootOid := by
    obtain ⟨obj, hobj, hline⟩ := hwhole.commit
    have hcommit : s.answer inflate commitOid = some obj.data := by
      rw [hanswer commitOid .commit, dataOf, hobj, Option.map_some]
    unfold GitEngine.initializeGcs at hrun
    simp only [hhead, hcommit, hline] at hrun
    split at hrun
    · cases hrun
    · exact (Prod.mk.inj (Option.some.inj hrun)).1.symm
  subst hok
  refine ⟨g', hrun, ?_, ?_⟩
  · obtain ⟨commitOid', data, hhead', hcommit, -⟩ := initializeGcs_commit hrun
    rw [hhead] at hhead'
    rw [hcommit, ← hhead']
    rfl
  · have hhas : g'.HasHierarchy (s.answer inflate) rootOid := by
      refine initializeGcs_hasHierarchy (fun _ _ h => h) hnew hrun ?_
      intro oid hoid
      have hin := (inHierarchy_congr hagree).mp hoid
      rw [hagree oid hin]
      exact hwhole.trees oid hin
    intro oid hoid
    obtain ⟨data, tree, hdata, hparse, htree⟩ := hhas oid ((inHierarchy_congr hagree).mpr hoid)
    exact ⟨data, tree, (hagree oid hoid).symm.trans hdata, hparse, htree⟩

end Bucket

/-! ## Objects beside packs and packs under their SHA -/

open GcsGitStorage (packObjectName)

namespace Bucket

/-- An object that is not kept with the packs. -/
def Aside (name : Str) : Prop := "objects/pack/".toList.isPrefixOf name = false

/-- What a session writes: an object beside the packs, or a pack or its index under the SHA of the pack. -/
inductive Orderly (packs : Str → Option (Bytes × Bytes)) : Str × Bytes → Prop where
  | aside {w : Str × Bytes} : Aside w.1 → Orderly packs w
  | pack {packSha : Str} {pack idx : Bytes} : packs packSha = some (pack, idx) →
      Orderly packs (packObjectName packSha ".pack".toList, pack)
  | idx {packSha : Str} {pack idx : Bytes} : packs packSha = some (pack, idx) →
      Orderly packs (packObjectName packSha ".idx".toList, idx)

/-- An index that is there under the SHA of a pack is its index, and the pack is there. -/
def Known (packs : Str → Option (Bytes × Bytes)) (b : Bucket) : Prop :=
  ∀ packSha pack idx, packs packSha = some (pack, idx) → packObjectName packSha ".idx".toList ∈ b.idxNames →
    b.lookup (packObjectName packSha ".pack".toList) = some pack ∧
      b.lookup (packObjectName packSha ".idx".toList) = some idx

theorem aside_ne {name : Str} (h : Aside name) {packSha suffix : Str} : name ≠ packObjectName packSha suffix := by
  rintro rfl
  have hfront : "objects/pack/".toList.isPrefixOf (packObjectName packSha suffix) = true := rfl
  exact Bool.false_ne_true (h.symm.trans hfront)

theorem idx_end (packSha : Str) : ".idx".toList.isSuffixOf (packObjectName packSha ".idx".toList) = true :=
  List.isSuffixOf_iff_suffix.mpr (List.suffix_append _ _)

theorem packOfIndex_pack (packSha : Str) :
    packOfIndex (packObjectName packSha ".idx".toList) = packObjectName packSha ".pack".toList :=
  packOfIndex_eq

theorem packOfIndex_front {name : Str} (hfront : "objects/pack/".toList.isPrefixOf name = true)
    (hend : ".idx".toList.isSuffixOf name = true) : "objects/pack/".toList.isPrefixOf (packOfIndex name) = true := by
  obtain ⟨stem, rfl⟩ := List.isSuffixOf_iff_suffix.mp hend
  rw [packOfIndex_eq, List.isPrefixOf_iff_prefix]
  rw [List.isPrefixOf_iff_prefix] at hfront
  obtain hin | hshort := List.prefix_or_prefix_of_prefix hfront (List.prefix_append stem ".idx".toList)
  · exact hin.trans (List.prefix_append _ _)
  · -- a stem that is a part of the directory's name would have the index outside of it
    have hout : ∀ k < 13, ("objects/pack/".toList.take k).length = k ∧
        "objects/pack/".toList.isPrefixOf ("objects/pack/".toList.take k ++ ".idx".toList) = false := by decide
    have hstem := List.prefix_iff_eq_take.mp hshort
    have hlength : "objects/pack/".toList.length = 13 := by decide
    by_cases hlt : stem.length < 13
    · have hnot := (hout _ hlt).2
      rw [← hstem] at hnot
      exact absurd (hnot.symm.trans (List.isPrefixOf_iff_prefix.mpr hfront)) (by decide)
    · rw [List.take_of_length_le (by omega)] at hstem
      rw [hstem]
      exact List.prefix_append _ _

section

variable {packs : Str → Option (Bytes × Bytes)} {b : Bucket} {w : Str × Bytes}

theorem Orderly.pack_eq (h : Orderly packs w) {packSha : Str} {pack idx : Bytes}
    (hpacks : packs packSha = some (pack, idx)) (hname : w.1 = packObjectName packSha ".pack".toList) : w.2 = pack := by
  cases h with
  | aside haside => exact absurd hname (aside_ne haside)
  | pack hsha =>
    obtain rfl := packObjectName_inj hname
    exact (Prod.mk.inj (Option.some.inj (hsha.symm.trans hpacks))).1
  | idx hsha => exact absurd hname.symm (packObjectName_pack_ne_idx _ _)

theorem Orderly.idx_eq (h : Orderly packs w) {packSha : Str} {pack idx : Bytes}
    (hpacks : packs packSha = some (pack, idx)) (hname : w.1 = packObjectName packSha ".idx".toList) : w.2 = idx := by
  cases h with
  | aside haside => exact absurd hname (aside_ne haside)
  | pack hsha => exact absurd hname (packObjectName_pack_ne_idx _ _)
  | idx hsha =>
    obtain rfl := packObjectName_inj hname
    exact (Prod.mk.inj (Option.some.inj (hsha.symm.trans hpacks))).2

/-- What is written in order changes no pack that has its index. -/
theorem Known.spares (h : b.Known packs) (hw : Orderly packs w) : b.Spares w := by
  intro name hname
  obtain ⟨-, hfront, hend⟩ := mem_idxNames.mp hname
  cases hw with
  | aside haside =>
    refine ⟨?_, ?_⟩
    · rintro rfl
      exact absurd (haside.symm.trans hfront) Bool.false_ne_true
    · intro hpack
      rw [hpack] at haside
      exact absurd (haside.symm.trans (packOfIndex_front hfront hend)) Bool.false_ne_true
  | @pack packSha pack idx hsha =>
    refine ⟨?_, ?_⟩
    · rintro rfl
      exact absurd (packOfIndex_pack packSha) (packOfIndex_ne hend)
    · intro hpack
      have hidx : packObjectName packSha ".idx".toList = name :=
        packOfIndex_inj (idx_end packSha) hend ((packOfIndex_pack packSha).trans hpack)
      rw [← hpack]
      exact (h packSha pack idx hsha (hidx ▸ hname)).1
  | @idx packSha pack idx hsha =>
    refine ⟨?_, ?_⟩
    · rintro rfl
      exact (h packSha pack idx hsha hname).2
    · intro hpack
      exact absurd hpack.symm (packOfIndex_ne (idx_end packSha))

theorem Known.write (h : b.Known packs) (hw : Orderly packs w)
    (hpack : ∀ packSha pack idx, packs packSha = some (pack, idx) → w.1 = packObjectName packSha ".idx".toList →
      b.lookup (packObjectName packSha ".pack".toList) = some pack) :
    (b.writeRapidObject w.1 w.2).Known packs := by
  intro packSha pack idx hsha hname
  have hthere : b.lookup (packObjectName packSha ".pack".toList) = some pack ∧
      (w.1 ≠ packObjectName packSha ".idx".toList →
        b.lookup (packObjectName packSha ".idx".toList) = some idx) := by
    rcases idxNames_write hname with hold | hnew
    · obtain ⟨hpackThere, hidxThere⟩ := h packSha pack idx hsha hold
      exact ⟨hpackThere, fun _ => hidxThere⟩
    · exact ⟨hpack packSha pack idx hsha hnew, fun hne => absurd hnew hne⟩
  refine ⟨?_, ?_⟩
  · rw [lookup_write]
    split
    · rename_i heq
      rw [hw.pack_eq hsha heq]
    · exact hthere.1
  · rw [lookup_write]
    split
    · rename_i heq
      rw [hw.idx_eq hsha heq]
    · rename_i hne
      exact hthere.2 hne

end

/-! ## What a start may find -/

/-- Whatever a start can take its commit from names a commit that all is there for. -/
structure HeadsComplete (inflate : Bytes → Option (Bytes × Nat)) (content : Str → Option GitRawObject) (b : Bucket) :
    Prop where
  refs : ∀ name sha, "refs/".toList.isPrefixOf name = true → b.lookupRef name = some sha →
    b.Complete inflate content sha
  symbolic : ∀ ref, b.headRef = some ref → "refs/".toList.isPrefixOf ref = true
  detached : b.headRef = none → ∀ sha name, b.resolveSymbolicHead = .ok (sha, name) → b.Complete inflate content sha

theorem branchRef_front (branch : Str) : "refs/".toList.isPrefixOf (branchRef branch) = true := by
  rw [branchRef_eq]
  rfl

section

variable {inflate : Bytes → Option (Bytes × Nat)} {content : Str → Option GitRawObject} {b : Bucket}

theorem HeadsComplete.resolveHead (h : b.HeadsComplete inflate content) {branch : Option Str} {sha name : Str}
    (hhead : b.resolveHead branch = .ok (sha, name)) : b.Complete inflate content sha := by
  have hsymbolic : b.resolveSymbolicHead = .ok (sha, name) → b.Complete inflate content sha := by
    intro hres
    cases href : b.headRef with
    | none => exact h.detached href sha name hres
    | some ref =>
      rw [resolveSymbolicHead_of_headRef href] at hres
      split at hres
      · rename_i sha' hsha
        rw [Except.ok.injEq, Prod.mk.injEq] at hres
        exact h.refs ref sha (h.symbolic ref href) (hres.1 ▸ hsha)
      · cases hres
  cases branch with
  | none => exact hsymbolic hhead
  | some asked =>
    rw [resolveHead_some] at hhead
    split at hhead
    · rename_i sha' hsha
      rw [Except.ok.injEq, Prod.mk.injEq] at hhead
      exact h.refs _ sha (branchRef_front asked) (hhead.1 ▸ hsha)
    · exact hsymbolic hhead

/-- A write that is not HEAD, and that puts only a complete commit in a ref. -/
theorem HeadsComplete.write (h : b.HeadsComplete inflate content) {w : Str × Bytes} (hspares : b.Spares w)
    (hhead : w.1 ≠ "HEAD".toList) (hpacked : w.1 ≠ "packed-refs".toList)
    (href : "refs/".toList.isPrefixOf w.1 = true →
      ∃ commitOid, IsOid commitOid ∧ w.2 = asBytes (commitOid ++ ['\n']) ∧ b.Complete inflate content commitOid) :
    (b.writeRapidObject w.1 w.2).HeadsComplete inflate content := by
  have hlookup : (b.writeRapidObject w.1 w.2).lookup "HEAD".toList = b.lookup "HEAD".toList := by
    rw [lookup_write, if_neg hhead]
  have hsame : (b.writeRapidObject w.1 w.2).headRef = b.headRef := by
    unfold headRef
    rw [hlookup]
  refine ⟨?_, fun ref hname => h.symbolic ref (hsame ▸ hname), ?_⟩
  · intro name sha hname hsha
    by_cases heq : w.1 = name
    · subst heq
      obtain ⟨commitOid, hoid, hdata, hcomplete⟩ := href hname
      have hwritten := lookupRef_write_ref b w.1 commitOid hoid
      rw [← hdata, hsha, Option.some.injEq] at hwritten
      exact hwritten ▸ hcomplete.write hspares
    · rw [lookupRef_write_of_ne _ _ _ _ heq hpacked] at hsha
      exact (h.refs name sha hname hsha).write hspares
  · intro hnone sha name hres
    rw [hsame] at hnone
    refine (h.detached hnone sha name ?_).write hspares
    rw [← hres]
    -- a HEAD that names no ref is resolved from its own text
    unfold headRef symbolicName at hnone
    unfold resolveSymbolicHead
    rw [hlookup]
    cases hbytes : b.lookup "HEAD".toList with
    | none => rfl
    | some bytes =>
      rw [hbytes, Option.bind_some] at hnone
      split at hnone
      · cases hnone
      · rename_i hnot
        simp only [if_neg hnot]

/-- A HEAD that names a branch. -/
theorem HeadsComplete.write_head (h : b.HeadsComplete inflate content) (target : Str)
    (hspares : b.Spares ("HEAD".toList, asBytes ("ref: refs/heads/".toList ++ target ++ ['\n']))) :
    (b.writeRapidObject "HEAD".toList (asBytes ("ref: refs/heads/".toList ++ target ++ ['\n']))).HeadsComplete
      inflate content := by
  have hname : (b.writeRapidObject "HEAD".toList (asBytes ("ref: refs/heads/".toList ++ target ++ ['\n']))).headRef =
      some (branchRef (target.rdropWhile isWhitespace)) := by
    rw [headRef, writeRapidObject, AList.lookup_insert, Option.bind_some, fromUtf8Lossy_asBytes, symbolicName_head]
  refine ⟨?_, ?_, ?_⟩
  · intro name sha hfront hsha
    have hne : "HEAD".toList ≠ name := by
      rintro rfl
      exact absurd hfront (by decide)
    rw [lookupRef_write_of_ne _ _ _ _ hne (by decide)] at hsha
    exact (h.refs name sha hfront hsha).write hspares
  · intro ref href
    rw [hname, Option.some.injEq] at href
    exact href ▸ branchRef_front _
  · intro hnone
    rw [hname] at hnone
    cases hnone

end

end Bucket

end GitNfs
