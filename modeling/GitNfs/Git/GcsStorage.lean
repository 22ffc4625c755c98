import GitNfs.Git.CommitMessage
import Mathlib.Data.List.AList

/-! # The repository in a bucket

The objects of a repository, named without the prefix of the repository. A listing is taken to be whole.
-/

namespace GitNfs

abbrev Bucket := AList fun _ : Str => Bytes

namespace Bucket

def writeRapidObject (b : Bucket) (name : Str) (data : Bytes) : Bucket := b.insert name data

/-- The names under a prefix, in order. -/
def listObjects (b : Bucket) (namePrefix : Str) : List Str :=
  sortBy compareStr (b.keys.filter namePrefix.isPrefixOf)

/-! ## Reading refs -/

/-- The value of a packed ref: the first line that names it. -/
def lookupPackedRef (b : Bucket) (refName : Str) : Option Str :=
  match b.lookup "packed-refs".toList with
  | none => none
  | some bytes =>
    (lines (fromUtf8Lossy bytes)).findSome? fun line =>
      match trim line with
      | '#' :: _ => none
      | '^' :: _ => none
      | line =>
        match splitWhitespace line with
        | sha :: name :: _ => if name = refName then some sha else none
        | _ => none

/-- The commit of a loose ref, if its object holds 40 bytes of text. -/
def lookupLooseRef (b : Bucket) (refName : Str) : Option Str :=
  match b.lookup refName with
  | none => none
  | some bytes =>
    let sha := trim (fromUtf8Lossy bytes)
    if (asBytes sha).length = 40 then some sha else none

def branchRef (branch : Str) : Str := "refs/heads/".toList ++ branch

/-- A ref, loose or packed. -/
def lookupRef (b : Bucket) (refName : Str) : Option Str :=
  (b.lookupLooseRef refName).or (b.lookupPackedRef refName)

def resolveSymbolicHead (b : Bucket) : Except Error (Str × Str) :=
  match b.lookup "HEAD".toList with
  | none => .error .headUnreadable
  | some bytes =>
    let head := trim (fromUtf8Lossy bytes)
    if "ref: ".toList.isPrefixOf head then
      let refName := trim (trimStartMatches "ref: ".toList head.length head)
      match b.lookupRef refName with
      | some sha => .ok (sha, refName)
      | none => .error (.unresolvedRef refName)
    else if 40 ≤ (asBytes head).length then
      -- a cut inside a character panics
      match fromUtf8 ((asBytes head).take 40) with
      | some sha => .ok (sha, "HEAD".toList)
      | none => .error (.invalidHead head)
    else .error (.invalidHead head)

/-- The commit that is browsed, and the name it was found under. -/
def resolveHead (b : Bucket) (branchOverride : Option Str) : Except Error (Str × Str) :=
  match branchOverride with
  | none => b.resolveSymbolicHead
  | some branch =>
    match b.lookupRef (branchRef branch) with
    | some sha => .ok (sha, branch)
    | none => b.resolveSymbolicHead

theorem lookupRef_write_of_ne (b : Bucket) (refName name : Str) (data : Bytes) (hname : name ≠ refName)
    (hpacked : name ≠ "packed-refs".toList) :
    (b.writeRapidObject name data).lookupRef refName = b.lookupRef refName := by
  simp only [lookupRef, lookupLooseRef, lookupPackedRef, writeRapidObject,
    AList.lookup_insert_ne hname.symm, AList.lookup_insert_ne hpacked.symm]

/-- A ref that was written holds the commit that was written. -/
theorem lookupRef_write_ref (b : Bucket) (refName commitOid : Str) (h : IsOid commitOid) :
    (b.writeRapidObject refName (asBytes (commitOid ++ ['\n']))).lookupRef refName = some commitOid := by
  obtain ⟨htrim, hlen⟩ := h.line
  simp only [lookupRef, lookupLooseRef, writeRapidObject, AList.lookup_insert, htrim, hlen, if_true,
    Option.some_or]

/-! ## Server info -/

abbrev RefsMap := AList fun _ : Str => Str × Option Str

/-- One line of packed-refs: the refs so far, and the ref of the line before. -/
def packedRefLine (acc : RefsMap × Option Str) (line : Str) : RefsMap × Option Str :=
  match trim line with
  | [] => acc
  | '#' :: _ => acc
  | '^' :: rest =>
    let peeled := trim (trimStartMatches ['^'] rest.length rest)
    if (asBytes peeled).length = 40 then
      match acc.2 with
      | some name =>
        match acc.1.lookup name with
        | some (sha, _) => (acc.1.insert name (sha, some peeled), acc.2)
        | none => acc
      | none => acc
    else acc
  | line =>
    match splitWhitespace line with
    | sha :: name :: _ =>
      if (asBytes sha).length = 40 then (acc.1.insert name (sha, none), some name) else acc
    | _ => acc

def packedRefs (b : Bucket) : RefsMap :=
  match b.lookup "packed-refs".toList with
  | none => ∅
  | some bytes => ((lines (fromUtf8Lossy bytes)).foldl packedRefLine (∅, none)).1

/-- A loose ref replaces the packed one and keeps what it was peeled to. -/
def addLooseRef (b : Bucket) (refs : RefsMap) (refName : Str) : RefsMap :=
  match b.lookupLooseRef refName with
  | some sha => refs.insert refName (sha, (refs.lookup refName).bind Prod.snd)
  | none => refs

def serverRefs (b : Bucket) (targetBranch newCommitOid : Str) : RefsMap :=
  ((b.listObjects "refs/".toList).foldl b.addLooseRef b.packedRefs).insert
    (branchRef targetBranch) (newCommitOid, none)

def formatInfoRefs (entries : List (Str × Str × Option Str)) : Str :=
  (sortBy (fun a b => compareStr a.1 b.1) entries).flatMap fun (name, sha, peeled) =>
    sha ++ '\t' :: name ++ ['\n'] ++
      match peeled with
      | some peeled => peeled ++ '\t' :: name ++ "^\x7b\x7d\n".toList
      | none => []

def basename (name : Str) : Str := (name.splitOn '/').getLast?.getD name

def formatInfoPacks (packNames : List Str) : Str :=
  let names := (packNames.map basename).filter ".pack".toList.isSuffixOf
  match sortBy compareStr names.dedup with
  | [] => []
  | sorted => sorted.flatMap (fun name => "P ".toList ++ name ++ ['\n']) ++ ['\n']

end Bucket

/-! ## Publishing a commit -/

structure GcsGitStorage where
  objects : Bucket
  /-- The packs whose indexes are in memory. -/
  packNames : List Str

namespace GcsGitStorage

def packObjectName (packSha suffix : Str) : Str :=
  "objects/pack/pack-".toList ++ packSha ++ suffix

/-- What `refresh_pack_indexes` knows once it has read every index. -/
def refreshPackIndexes (s : GcsGitStorage) : GcsGitStorage :=
  let idx := (s.objects.listObjects "objects/pack/".toList).filter ".idx".toList.isSuffixOf
  let found := idx.map fun name => name.take (name.length - 4) ++ ".pack".toList
  { s with packNames := s.packNames ++ found.filter fun name => !s.packNames.contains name }

def writeObject (s : GcsGitStorage) (w : Str × Bytes) : GcsGitStorage :=
  { s with objects := s.objects.writeRapidObject w.1 w.2 }

def targetBranch (branch : Option Str) : Str := branch.getD "master".toList

/-- The pack, its index, and the refs, in the order they are written. -/
def commitWrites (commitOid packSha : Str) (packData idxData : Bytes) (branch : Option Str) :
    List (Str × Bytes) :=
  [ (packObjectName packSha ".pack".toList, packData),
    (packObjectName packSha ".idx".toList, idxData),
    ("HEAD".toList, asBytes ("ref: refs/heads/".toList ++ targetBranch branch ++ ['\n'])),
    (Bucket.branchRef (targetBranch branch), asBytes (commitOid ++ ['\n'])) ]

theorem ne_of_head {s t : Str} {a b : Char} (hs : s.head? = some a) (ht : t.head? = some b) (h : a ≠ b) :
    s ≠ t := by
  rintro rfl
  rw [hs] at ht
  exact h (Option.some.inj ht)

theorem branchRef_head (b : Str) : (Bucket.branchRef b).head? = some 'r' := rfl
theorem packObjectName_head (packSha suffix : Str) : (packObjectName packSha suffix).head? = some 'o' := rfl
theorem packedRefs_head : "packed-refs".toList.head? = some 'p' := rfl

/-- Of the four objects only the ref of the branch is a ref, and none is the file of packed refs. -/
theorem commitWrites_name {commitOid packSha : Str} {packData idxData : Bytes} {branch : Option Str}
    {w : Str × Bytes} (h : w ∈ commitWrites commitOid packSha packData idxData branch) :
    w.1 ≠ "packed-refs".toList ∧
      (w = (Bucket.branchRef (targetBranch branch), asBytes (commitOid ++ ['\n'])) ∨
        ∀ b, w.1 ≠ Bucket.branchRef b) := by
  simp only [commitWrites, List.mem_cons, List.not_mem_nil, or_false] at h
  rcases h with rfl | rfl | rfl | rfl
  · exact ⟨ne_of_head (packObjectName_head _ _) packedRefs_head (by decide),
      .inr fun b => ne_of_head (packObjectName_head _ _) (branchRef_head b) (by decide)⟩
  · exact ⟨ne_of_head (packObjectName_head _ _) packedRefs_head (by decide),
      .inr fun b => ne_of_head (packObjectName_head _ _) (branchRef_head b) (by decide)⟩
  · exact ⟨ne_of_head (a := 'H') rfl packedRefs_head (by decide),
      .inr fun b => ne_of_head (a := 'H') rfl (branchRef_head b) (by decide)⟩
  · exact ⟨ne_of_head (branchRef_head _) packedRefs_head (by decide), .inl rfl⟩

/-- `update_server_info`, from what the bucket holds when it starts. -/
def serverInfoWrites (s : GcsGitStorage) (commitOid : Str) (branch : Option Str) : List (Str × Bytes) :=
  let refs := (s.objects.serverRefs (targetBranch branch) commitOid).entries.map fun e => (e.1, e.2)
  let infoRefs := ("info/refs".toList, asBytes (Bucket.formatInfoRefs refs))
  let packs := (s.objects.writeRapidObject infoRefs.1 infoRefs.2).listObjects "objects/pack/".toList
  let names := s.packNames ++ packs.filter ".pack".toList.isSuffixOf
  [infoRefs, ("objects/info/packs".toList, asBytes (Bucket.formatInfoPacks names))]

theorem serverInfoWrites_name {s : GcsGitStorage} {commitOid : Str} {branch : Option Str} {w : Str × Bytes}
    (h : w ∈ s.serverInfoWrites commitOid branch) :
    w.1 ≠ "packed-refs".toList ∧ ∀ b, w.1 ≠ Bucket.branchRef b := by
  simp only [serverInfoWrites, List.mem_cons, List.not_mem_nil, or_false] at h
  rcases h with rfl | rfl
  · exact ⟨ne_of_head (a := 'i') rfl packedRefs_head (by decide),
      fun b => ne_of_head (a := 'i') rfl (branchRef_head b) (by decide)⟩
  · exact ⟨ne_of_head (a := 'o') rfl packedRefs_head (by decide),
      fun b => ne_of_head (a := 'o') rfl (branchRef_head b) (by decide)⟩

theorem serverInfoWrites_ne_head {s : GcsGitStorage} {commitOid : Str} {branch : Option Str}
    {w : Str × Bytes} (h : w ∈ s.serverInfoWrites commitOid branch) : w.1 ≠ "HEAD".toList := by
  simp only [serverInfoWrites, List.mem_cons, List.not_mem_nil, or_false] at h
  rcases h with rfl | rfl
  · exact ne_of_head (a := 'i') (b := 'H') rfl rfl (by decide)
  · exact ne_of_head (a := 'o') (b := 'H') rfl rfl (by decide)

/-- Every object that `write_completed_commit` writes, in order. -/
def completedCommitWrites (s : GcsGitStorage) (commitOid packSha : Str) (packData idxData : Bytes)
    (branch : Option Str) : List (Str × Bytes) :=
  let writes := commitWrites commitOid packSha packData idxData branch
  writes ++ (writes.foldl writeObject s).refreshPackIndexes.serverInfoWrites commitOid branch

def writeCompletedCommit (s : GcsGitStorage) (commitOid packSha : Str) (packData idxData : Bytes)
    (branch : Option Str) : GcsGitStorage :=
  let s := ((commitWrites commitOid packSha packData idxData branch).foldl writeObject s).refreshPackIndexes
  (s.serverInfoWrites commitOid branch).foldl writeObject s

end GcsGitStorage

end GitNfs
