import GitNfs.Git.GcsStorage

/-! # The ref that is read and the ref that is written

A start takes its commit from a branch or from what HEAD names. A commit is published to the branch that
was asked for, or to `master`, and HEAD is made to name it.
-/

namespace GitNfs

theorem append_ne_of_last {x y s t : Str} {a b : Char} (hs : s.getLast? = some a)
    (ht : t.getLast? = some b) (hab : a ≠ b) : x ++ s ≠ y ++ t := by
  intro h
  have hlast := congrArg List.getLast? h
  rw [List.getLast?_append, List.getLast?_append, hs, ht] at hlast
  exact hab (Option.some.inj hlast)

theorem packObjectName_pack_ne_idx (a b : Str) :
    GcsGitStorage.packObjectName a ".pack".toList ≠ GcsGitStorage.packObjectName b ".idx".toList :=
  append_ne_of_last (a := 'k') (b := 'x') (by decide) (by decide) (by decide)

/-! ## The head after a commit was written -/

/-- The branch holds the commit, and HEAD names the branch. -/
structure Heads (objects : Bucket) (branch : Option Str) (commitOid : Str) : Prop where
  head : objects.lookup "HEAD".toList =
    some (asBytes ("ref: refs/heads/".toList ++ GcsGitStorage.targetBranch branch ++ ['\n']))
  ref : objects.lookupRef (Bucket.branchRef (GcsGitStorage.targetBranch branch)) = some commitOid

theorem Heads.resolveHead {objects : Bucket} {branch : Option Str} {commitOid : Str}
    (h : Heads objects branch commitOid) : ∃ name, objects.resolveHead branch = .ok (commitOid, name) := by
  cases branch with
  | some b =>
    refine ⟨b, ?_⟩
    have href : objects.lookupRef (Bucket.branchRef b) = some commitOid := h.ref
    simp only [Bucket.resolveHead, href]
  | none =>
    have htrim : trim ("ref: refs/heads/".toList ++ "master".toList ++ ['\n']) =
        "ref: refs/heads/master".toList := by decide
    have hstart : "ref: ".toList.isPrefixOf "ref: refs/heads/master".toList = true := by decide
    have hname : trim (trimStartMatches "ref: ".toList "ref: refs/heads/master".toList.length
        "ref: refs/heads/master".toList) = Bucket.branchRef "master".toList := by decide
    have href : objects.lookupRef (Bucket.branchRef "master".toList) = some commitOid := h.ref
    have hhead : objects.lookup "HEAD".toList =
        some (asBytes ("ref: refs/heads/".toList ++ "master".toList ++ ['\n'])) := h.head
    refine ⟨Bucket.branchRef "master".toList, ?_⟩
    simp only [Bucket.resolveHead, Bucket.resolveSymbolicHead, hhead, fromUtf8Lossy_asBytes, htrim, hstart,
      if_true, hname, href]

theorem Heads.write {objects : Bucket} {branch : Option Str} {commitOid name : Str} {data : Bytes}
    (h : Heads objects branch commitOid) (hhead : name ≠ "HEAD".toList) (hpacked : name ≠ "packed-refs".toList)
    (href : ∀ b, name ≠ Bucket.branchRef b) : Heads (objects.writeRapidObject name data) branch commitOid := by
  refine ⟨?_, ?_⟩
  · rw [Bucket.writeRapidObject, AList.lookup_insert_ne hhead.symm]
    exact h.head
  · rw [Bucket.lookupRef_write_of_ne _ _ _ _ (href _) hpacked]
    exact h.ref

theorem heads_of_ref (objects : Bucket) (branch : Option Str) (commitOid : Str) (hoid : IsOid commitOid) :
    Heads ((objects.writeRapidObject "HEAD".toList
      (asBytes ("ref: refs/heads/".toList ++ GcsGitStorage.targetBranch branch ++ ['\n']))).writeRapidObject
      (Bucket.branchRef (GcsGitStorage.targetBranch branch)) (asBytes (commitOid ++ ['\n']))) branch commitOid := by
  refine ⟨?_, Bucket.lookupRef_write_ref _ _ _ hoid⟩
  have hne : "HEAD".toList ≠ Bucket.branchRef (GcsGitStorage.targetBranch branch) :=
    GcsGitStorage.ne_of_head (a := 'H') rfl (GcsGitStorage.branchRef_head _) (by decide)
  rw [Bucket.writeRapidObject, AList.lookup_insert_ne hne, Bucket.writeRapidObject, AList.lookup_insert]

/-! ## What HEAD names -/

namespace Bucket

/-- The ref that a HEAD of this text names, if it is symbolic. -/
def symbolicName (head : Str) : Option Str :=
  if "ref: ".toList.isPrefixOf head then
    some (trim (trimStartMatches "ref: ".toList head.length head))
  else none

def headRef (b : Bucket) : Option Str :=
  (b.lookup "HEAD".toList).bind fun bytes => symbolicName (trim (fromUtf8Lossy bytes))

/-- The ref that `resolve_head` takes its commit from; HEAD itself if it is detached. -/
def baseRef (b : Bucket) (branch : Option Str) : Str :=
  match branch.filter fun name => (b.lookupRef (branchRef name)).isSome with
  | some name => branchRef name
  | none => b.headRef.getD "HEAD".toList

theorem resolveSymbolicHead_of_headRef {b : Bucket} {ref : Str} (h : b.headRef = some ref) :
    b.resolveSymbolicHead =
      match b.lookupRef ref with
      | some sha => .ok (sha, ref)
      | none => .error (.unresolvedRef ref) := by
  obtain ⟨bytes, hbytes, hname⟩ := Option.bind_eq_some_iff.mp h
  unfold symbolicName at hname
  split_ifs at hname with hstart
  simp only [Option.some.injEq] at hname
  cases hsha : b.lookupRef ref with
  | some sha => simp only [resolveSymbolicHead, hbytes, hstart, if_true, hname, hsha]
  | none => simp only [resolveSymbolicHead, hbytes, hstart, if_true, hname, hsha]

theorem resolveHead_some (b : Bucket) (name : Str) :
    b.resolveHead (some name) =
      match b.lookupRef (branchRef name) with
      | some sha => .ok (sha, name)
      | none => b.resolveSymbolicHead := rfl

theorem resolveHead_none (b : Bucket) : b.resolveHead none = b.resolveSymbolicHead := rfl

end Bucket

/-! ### The name that is read back -/

theorem rdropWhile_append {α : Type} (p : α → Bool) (l m : List α) {x : α} (hlast : l.getLast? = some x)
    (hx : p x = false) : (l ++ m).rdropWhile p = l ++ m.rdropWhile p := by
  induction m using List.reverseRecOn with
  | nil =>
    rw [List.append_nil, List.rdropWhile_nil, List.append_nil, List.rdropWhile_eq_self_iff]
    intro hne
    rw [List.getLast?_eq_some_getLast hne, Option.some.injEq] at hlast
    simp [hlast, hx]
  | append_singleton m c ih =>
    rw [← List.append_assoc, List.rdropWhile_concat, List.rdropWhile_concat]
    split_ifs
    · exact ih
    · exact List.append_assoc _ _ _

theorem trim_append (l m : Str) {x y : Char} (hhead : l.head? = some x) (hx : isWhitespace x = false)
    (hlast : l.getLast? = some y) (hy : isWhitespace y = false) :
    trim (l ++ m) = l ++ m.rdropWhile isWhitespace := by
  have hkeep : (l ++ m).dropWhile isWhitespace = l ++ m := by
    obtain ⟨rest, rfl⟩ : ∃ rest, l = x :: rest := by
      cases l with
      | nil => simp at hhead
      | cons c cs => exact ⟨cs, by rw [List.head?_cons, Option.some.injEq] at hhead; rw [hhead]⟩
    rw [List.cons_append, List.dropWhile_cons_of_neg (by simp [hx])]
  rw [trim, hkeep, rdropWhile_append _ _ _ hlast hy]

theorem trimStartMatches_once (p s : Str) (hp : p ≠ []) (honce : p.isPrefixOf s = false) :
    trimStartMatches p (p ++ s).length (p ++ s) = s := by
  have hfirst : p.isPrefixOf (p ++ s) = true := List.isPrefixOf_iff_prefix.mpr (List.prefix_append _ _)
  obtain ⟨n, hn⟩ : ∃ n, (p ++ s).length = n + 1 :=
    Nat.exists_eq_succ_of_ne_zero (by simp [hp])
  rw [hn, trimStartMatches, if_pos hfirst, List.drop_left]
  cases n with
  | zero => rfl
  | succ n => rw [trimStartMatches, honce, if_neg (by simp)]

theorem branchRef_eq (b : Str) :
    Bucket.branchRef b = ['r', 'e', 'f', 's', '/', 'h', 'e', 'a', 'd', 's', '/'] ++ b :=
  congrArg (· ++ b) (by decide)

theorem trim_branchRef (target : Str) :
    trim (Bucket.branchRef target) = Bucket.branchRef (target.rdropWhile isWhitespace) := by
  simp only [branchRef_eq]
  exact trim_append _ target (x := 'r') (y := '/') rfl (by decide) rfl (by decide)

/-- Only blanks at the end of a branch are lost on the way through HEAD. -/
theorem symbolicName_head (target : Str) :
    Bucket.symbolicName (trim ("ref: refs/heads/".toList ++ target ++ ['\n'])) =
      some (Bucket.branchRef (target.rdropWhile isWhitespace)) := by
  have hword : "ref: ".toList = ['r', 'e', 'f', ':', ' '] := by decide
  have hhead : "ref: refs/heads/".toList =
      ['r', 'e', 'f', ':', ' ', 'r', 'e', 'f', 's', '/', 'h', 'e', 'a', 'd', 's', '/'] := by decide
  have htrim : trim ("ref: refs/heads/".toList ++ target ++ ['\n']) =
      ['r', 'e', 'f', ':', ' '] ++ Bucket.branchRef (target.rdropWhile isWhitespace) := by
    simp only [hhead, branchRef_eq]
    rw [List.append_assoc, trim_append _ _ (x := 'r') (y := '/') rfl (by decide) rfl (by decide),
      List.rdropWhile_concat_pos _ _ _ (by decide)]
    rfl
  have honce (b : Str) : ['r', 'e', 'f', ':', ' '].isPrefixOf (Bucket.branchRef b) = false := by
    simp only [branchRef_eq]
    rfl
  have hstart (b : Str) : ['r', 'e', 'f', ':', ' '].isPrefixOf (['r', 'e', 'f', ':', ' '] ++ b) = true :=
    List.isPrefixOf_iff_prefix.mpr (List.prefix_append _ _)
  simp only [htrim, Bucket.symbolicName, hword, hstart, if_true]
  rw [trimStartMatches_once _ _ (by simp) (honce _), trim_branchRef, List.rdropWhile_idempotent]

/-! ## The objects of a commit, one after the other -/

namespace Bucket

def writeAll (b : Bucket) (ws : List (Str × Bytes)) : Bucket :=
  ws.foldl (fun b w => b.writeRapidObject w.1 w.2) b

variable {b : Bucket} {ws : List (Str × Bytes)}

theorem lookup_writeAll {name : Str} (h : ∀ w ∈ ws, w.1 ≠ name) :
    (b.writeAll ws).lookup name = b.lookup name := by
  induction ws generalizing b with
  | nil => rfl
  | cons w ws ih =>
    rw [writeAll, List.foldl_cons, ← writeAll, ih fun x hx => h x (List.mem_cons_of_mem _ hx)]
    exact AList.lookup_insert_ne (h w List.mem_cons_self).symm

theorem lookupRef_writeAll {ref : Str} (h : ∀ w ∈ ws, w.1 ≠ ref ∧ w.1 ≠ "packed-refs".toList) :
    (b.writeAll ws).lookupRef ref = b.lookupRef ref := by
  simp only [lookupRef, lookupLooseRef, lookupPackedRef, lookup_writeAll fun w hw => (h w hw).1,
    lookup_writeAll fun w hw => (h w hw).2]

end Bucket

namespace GcsGitStorage

theorem foldl_writeObject (s : GcsGitStorage) (ws : List (Str × Bytes)) :
    (ws.foldl writeObject s).objects = s.objects.writeAll ws := by
  induction ws generalizing s with
  | nil => rfl
  | cons w ws ih => exact ih _

/-- The repository once a commit is out. -/
theorem writeCompletedCommit_objects (s : GcsGitStorage) (commitOid packSha : Str) (packData idxData : Bytes)
    (branch : Option Str) :
    (s.writeCompletedCommit commitOid packSha packData idxData branch).objects =
      s.objects.writeAll (s.completedCommitWrites commitOid packSha packData idxData branch) := by
  simp only [writeCompletedCommit, completedCommitWrites, foldl_writeObject, Bucket.writeAll, List.foldl_append,
    refreshPackIndexes]

theorem completedCommitWrites_name {s : GcsGitStorage} {commitOid packSha : Str} {packData idxData : Bytes}
    {branch : Option Str} {w : Str × Bytes}
    (h : w ∈ s.completedCommitWrites commitOid packSha packData idxData branch) :
    w.1 ≠ "packed-refs".toList ∧ ∀ b, Bucket.branchRef b ≠ Bucket.branchRef (targetBranch branch) →
      w.1 ≠ Bucket.branchRef b := by
  rcases List.mem_append.mp h with h | h
  · obtain ⟨hpacked, rfl | hother⟩ := commitWrites_name h
    · exact ⟨hpacked, fun b hb => hb.symm⟩
    · exact ⟨hpacked, fun b _ => hother b⟩
  · obtain ⟨hpacked, hother⟩ := serverInfoWrites_name h
    exact ⟨hpacked, fun b _ => hother b⟩

/-- From the fourth object on the commit is the head. -/
theorem heads_writeAll (s : GcsGitStorage) {commitOid : Str} (packSha : Str) (packData idxData : Bytes)
    (branch : Option Str) (hoid : IsOid commitOid) (k : Nat) :
    Heads (s.objects.writeAll
      ((s.completedCommitWrites commitOid packSha packData idxData branch).take (4 + k))) branch commitOid := by
  have hlen : (commitWrites commitOid packSha packData idxData branch).length = 4 := rfl
  have hkeep : ∀ (ws : List (Str × Bytes)) (b : Bucket), Heads b branch commitOid →
      (∀ w ∈ ws, w.1 ≠ "HEAD".toList ∧ w.1 ≠ "packed-refs".toList ∧ ∀ name, w.1 ≠ Bucket.branchRef name) →
      Heads (b.writeAll ws) branch commitOid := by
    intro ws
    induction ws with
    | nil => exact fun _ hb _ => hb
    | cons w ws ih =>
      intro b hb hws
      obtain ⟨hhead, hpacked, href⟩ := hws w List.mem_cons_self
      exact ih _ (hb.write hhead hpacked href) fun x hx => hws x (List.mem_cons_of_mem _ hx)
  rw [completedCommitWrites, ← hlen, List.take_length_add_append, Bucket.writeAll, List.foldl_append]
  refine hkeep _ _ (heads_of_ref _ _ _ hoid) fun w hw => ?_
  have hw := List.mem_of_mem_take hw
  exact ⟨serverInfoWrites_ne_head hw, serverInfoWrites_name hw⟩

end GcsGitStorage

/-! ## The branch that is advanced -/

/-- The ref that the base was read from holds the commit, every other branch is what it was, and a HEAD
that named a branch still names it. -/
structure MovesBase (before after : Bucket) (branch : Option Str) (commitOid : Str) : Prop where
  moved : after.lookupRef (before.baseRef branch) = some commitOid
  others : ∀ b, Bucket.branchRef b ≠ before.baseRef branch →
    after.lookupRef (Bucket.branchRef b) = before.lookupRef (Bucket.branchRef b)
  head : branch = none → ∀ b, before.headRef = some (Bucket.branchRef b) →
    after.headRef = some (Bucket.branchRef b)

/-- The branch that was asked for is there, or none was asked for and HEAD names `master`. -/
def ReadsTarget (b : Bucket) : Option Str → Prop
  | some branch => (b.lookupRef (Bucket.branchRef branch)).isSome = true
  | none => b.headRef = some (Bucket.branchRef "master".toList)

instance (b : Bucket) (branch : Option Str) : Decidable (ReadsTarget b branch) :=
  match branch with
  | some branch => inferInstanceAs (Decidable ((b.lookupRef (Bucket.branchRef branch)).isSome = true))
  | none => inferInstanceAs (Decidable (b.headRef = some (Bucket.branchRef "master".toList)))

theorem head_ne_branchRef (b : Str) : "HEAD".toList ≠ Bucket.branchRef b :=
  GcsGitStorage.ne_of_head (a := 'H') rfl (GcsGitStorage.branchRef_head _) (by decide)

theorem Heads.headRef {objects : Bucket} {branch : Option Str} {commitOid : Str}
    (h : Heads objects branch commitOid) : objects.headRef =
      some (Bucket.branchRef ((GcsGitStorage.targetBranch branch).rdropWhile isWhitespace)) := by
  rw [Bucket.headRef, h.head, Option.bind_some, fromUtf8Lossy_asBytes, symbolicName_head]

/-- The base is read from the target exactly if the target is what is asked for and there. -/
theorem baseRef_eq_target_iff {b : Bucket} {branch : Option Str} {old name : Str}
    (h : b.resolveHead branch = .ok (old, name)) :
    b.baseRef branch = Bucket.branchRef (GcsGitStorage.targetBranch branch) ↔ ReadsTarget b branch := by
  have hgetD (ref : Str) : b.headRef.getD "HEAD".toList = Bucket.branchRef ref ↔
      b.headRef = some (Bucket.branchRef ref) := by
    cases b.headRef with
    | none => exact iff_of_false (head_ne_branchRef ref) (by simp)
    | some r => simp
  cases branch with
  | none => exact hgetD _
  | some branch =>
    cases hv : b.lookupRef (Bucket.branchRef branch) with
    | some v => simp [Bucket.baseRef, Option.filter, ReadsTarget, hv, GcsGitStorage.targetBranch]
    | none =>
      have hbase : b.baseRef (some branch) = b.headRef.getD "HEAD".toList := by
        simp [Bucket.baseRef, Option.filter, hv]
      rw [hbase]
      refine (hgetD branch).trans (iff_of_false (fun href => ?_) (by simp [ReadsTarget, hv]))
      rw [Bucket.resolveHead_some, hv] at h
      simp only at h
      rw [Bucket.resolveSymbolicHead_of_headRef href, hv] at h
      simp at h

/-- Every commit goes to the ref that its base was read from exactly if the branch that was asked for is
there, or none was asked for and HEAD names `master`. -/
theorem moves_base_iff (s : GcsGitStorage) (branch : Option Str) (old name : Str)
    (h : s.objects.resolveHead branch = .ok (old, name)) :
    (∀ commitOid packSha packData idxData, IsOid commitOid →
      MovesBase s.objects (s.writeCompletedCommit commitOid packSha packData idxData branch).objects branch
        commitOid) ↔
      ReadsTarget s.objects branch := by
  rw [← baseRef_eq_target_iff h]
  constructor
  · intro hall
    by_contra hne
    -- a commit that the target does not hold yet
    obtain ⟨commitOid, hoid, hnew⟩ : ∃ c, IsOid c ∧
        s.objects.lookupRef (Bucket.branchRef (GcsGitStorage.targetBranch branch)) ≠ some c := by
      by_cases ha : s.objects.lookupRef (Bucket.branchRef (GcsGitStorage.targetBranch branch)) =
          some (List.replicate 40 'a')
      · exact ⟨List.replicate 40 'b', by decide, by rw [ha]; decide⟩
      · exact ⟨List.replicate 40 'a', by decide, ha⟩
    have hothers := (hall commitOid [] [] [] hoid).others _ (Ne.symm hne)
    rw [GcsGitStorage.writeCompletedCommit_objects] at hothers
    have hheads := GcsGitStorage.heads_writeAll s [] [] [] branch hoid 2
    rw [List.take_of_length_le (by exact le_rfl)] at hheads
    exact hnew (hothers.symm.trans hheads.ref)
  · intro hbase commitOid packSha packData idxData hoid
    have hheads := GcsGitStorage.heads_writeAll s packSha packData idxData branch hoid 2
    rw [List.take_of_length_le (by exact le_rfl)] at hheads
    rw [GcsGitStorage.writeCompletedCommit_objects]
    refine ⟨hbase ▸ hheads.ref, fun b hb => ?_, fun hnone b hb => ?_⟩
    · refine Bucket.lookupRef_writeAll fun w hw => ?_
      obtain ⟨hpacked, hother⟩ := GcsGitStorage.completedCommitWrites_name hw
      exact ⟨hother b (hbase ▸ hb), hpacked⟩
    · subst hnone
      have htarget := (baseRef_eq_target_iff h).mp hbase
      rw [ReadsTarget, hb] at htarget
      rw [hheads.headRef, htarget]
      rfl

/-- A repository on a branch of this name. -/
def repositoryOn (branch : Str) : GcsGitStorage where
  objects := ((∅ : Bucket).writeRapidObject "HEAD".toList (asBytes ("ref: refs/heads/".toList ++ branch ++ ['\n'])))
    |>.writeRapidObject (Bucket.branchRef branch) (asBytes (List.replicate 40 'a' ++ ['\n']))
  packNames := []

/-- A repository on `main` that is served with that branch. -/
theorem moves_base_main :
    MovesBase (repositoryOn "main".toList).objects
      ((repositoryOn "main".toList).writeCompletedCommit (List.replicate 40 'b') ['p'] [1] [2]
        (some "main".toList)).objects (some "main".toList) (List.replicate 40 'b') :=
  (moves_base_iff (repositoryOn "main".toList) (some "main".toList) (List.replicate 40 'a') "main".toList
    (by decide +kernel)).mpr (by decide +kernel) _ _ _ _ (by decide)

/-- Without a branch the base is read from `main` and the commit goes to `master`. -/
theorem leaves_base :
    ¬ ∀ (s : GcsGitStorage) (branch : Option Str) (old name commitOid packSha : Str) (packData idxData : Bytes),
      s.objects.resolveHead branch = .ok (old, name) → IsOid commitOid →
      MovesBase s.objects (s.writeCompletedCommit commitOid packSha packData idxData branch).objects branch
        commitOid := by
  intro h
  have hmoved := (h (repositoryOn "main".toList) none (List.replicate 40 'a') "refs/heads/main".toList
    (List.replicate 40 'b') ['p'] [1] [2] (by decide +kernel) (by decide)).moved
  exact absurd hmoved (by decide +kernel)

/-! ## A crash in the middle of publishing -/

/-- A start finds the old commit, or the new one with its pack and index. -/
def FindsCommit (b : Bucket) (branch : Option Str) (old : Str) (new packSha : Str) (packData idxData : Bytes) :
    Prop :=
  ∃ commitOid name, b.resolveHead branch = .ok (commitOid, name) ∧
    (commitOid = old ∨ (commitOid = new ∧
      b.lookup (GcsGitStorage.packObjectName packSha ".pack".toList) = some packData ∧
      b.lookup (GcsGitStorage.packObjectName packSha ".idx".toList) = some idxData))

/-- The branch that was asked for is there, or HEAD may be made to name the target before it is written:
the target holds one of the two commits already, and HEAD names no object of a pack. -/
def SafeToPublish (b : Bucket) (branch : Option Str) (old new : Str) : Prop :=
  (∃ name, branch = some name ∧ (b.lookupRef (Bucket.branchRef name)).isSome = true) ∨
  ((∀ packSha, b.headRef ≠ some (GcsGitStorage.packObjectName packSha ".pack".toList) ∧
      b.headRef ≠ some (GcsGitStorage.packObjectName packSha ".idx".toList)) ∧
    ∃ commitOid, b.lookupRef (Bucket.branchRef
      ((GcsGitStorage.targetBranch branch).rdropWhile isWhitespace)) = some commitOid ∧
      (commitOid = old ∨ commitOid = new))

namespace Bucket

/-- What is written neither as HEAD nor as a ref that is read leaves the head alone. -/
theorem resolveSymbolicHead_writeAll {b : Bucket} {ws : List (Str × Bytes)}
    (h : ∀ w ∈ ws, w.1 ≠ "HEAD".toList ∧ w.1 ≠ "packed-refs".toList ∧ b.headRef ≠ some w.1) :
    (b.writeAll ws).resolveSymbolicHead = b.resolveSymbolicHead := by
  have hhead : (b.writeAll ws).lookup "HEAD".toList = b.lookup "HEAD".toList :=
    lookup_writeAll fun w hw => (h w hw).1
  cases href : b.headRef with
  | some ref =>
    have href' : (b.writeAll ws).headRef = some ref := by rw [headRef, hhead, ← headRef, href]
    have hvalue : (b.writeAll ws).lookupRef ref = b.lookupRef ref :=
      lookupRef_writeAll fun w hw => ⟨fun heq => (h w hw).2.2 (heq ▸ href), (h w hw).2.1⟩
    rw [resolveSymbolicHead_of_headRef href', resolveSymbolicHead_of_headRef href, hvalue]
  | none =>
    have hdetached : ∀ b' : Bucket, b'.lookup "HEAD".toList = b.lookup "HEAD".toList →
        b'.resolveSymbolicHead = b.resolveSymbolicHead := by
      intro b' hb'
      unfold resolveSymbolicHead
      rw [hb']
      cases hbytes : b.lookup "HEAD".toList with
      | none => rfl
      | some bytes =>
        rw [headRef, hbytes, Option.bind_some, symbolicName] at href
        split_ifs at href with hstart
        simp only [hstart, Bool.false_eq_true, if_false]
    exact hdetached _ hhead

theorem resolveHead_writeAll {b : Bucket} {ws : List (Str × Bytes)} (branch : Option Str)
    (h : ∀ w ∈ ws, w.1 ≠ "HEAD".toList ∧ w.1 ≠ "packed-refs".toList ∧ b.headRef ≠ some w.1)
    (href : ∀ w ∈ ws, ∀ name, w.1 ≠ branchRef name) :
    (b.writeAll ws).resolveHead branch = b.resolveHead branch := by
  cases branch with
  | none => exact resolveSymbolicHead_writeAll h
  | some name =>
    rw [resolveHead_some, resolveHead_some, resolveSymbolicHead_writeAll h,
      lookupRef_writeAll fun w hw => ⟨href w hw name, (h w hw).2.1⟩]

end Bucket

namespace GcsGitStorage

variable (s : GcsGitStorage) (new packSha : Str) (packData idxData : Bytes) (branch : Option Str)

/-- The repository after the first objects of a commit. -/
def after (k : Nat) : Bucket :=
  s.objects.writeAll ((s.completedCommitWrites new packSha packData idxData branch).take k)

def packWrites : List (Str × Bytes) :=
  [(packObjectName packSha ".pack".toList, packData), (packObjectName packSha ".idx".toList, idxData)]

theorem packWrites_name {w : Str × Bytes} (h : w ∈ packWrites packSha packData idxData) :
    w.1 ≠ "HEAD".toList ∧ w.1 ≠ "packed-refs".toList ∧ (∀ b, w.1 ≠ Bucket.branchRef b) := by
  have hhead (suffix : Str) : packObjectName packSha suffix ≠ "HEAD".toList :=
    ne_of_head (b := 'H') (packObjectName_head _ _) rfl (by decide)
  have hpacked (suffix : Str) : packObjectName packSha suffix ≠ "packed-refs".toList :=
    ne_of_head (packObjectName_head _ _) packedRefs_head (by decide)
  have href (suffix b : Str) : packObjectName packSha suffix ≠ Bucket.branchRef b :=
    ne_of_head (packObjectName_head _ _) (branchRef_head b) (by decide)
  simp only [packWrites, List.mem_cons, List.not_mem_nil, or_false] at h
  rcases h with rfl | rfl
  · exact ⟨hhead _, hpacked _, href _⟩
  · exact ⟨hhead _, hpacked _, href _⟩

variable {s new packSha packData idxData branch}

theorem mem_take_two {k : Nat} (hk : k ≤ 2) {w : Str × Bytes}
    (hw : w ∈ (s.completedCommitWrites new packSha packData idxData branch).take k) :
    w ∈ packWrites packSha packData idxData :=
  List.take_subset_take_left _ hk hw

/-- The objects before the branch are no refs. -/
theorem take_three_name {k : Nat} (hk : k ≤ 3) {w : Str × Bytes}
    (hw : w ∈ (s.completedCommitWrites new packSha packData idxData branch).take k) :
    w.1 ≠ "packed-refs".toList ∧ ∀ b, w.1 ≠ Bucket.branchRef b := by
  have hw' : w ∈ packWrites packSha packData idxData ++
      [("HEAD".toList, asBytes ("ref: refs/heads/".toList ++ targetBranch branch ++ ['\n']))] :=
    List.take_subset_take_left _ hk hw
  rcases List.mem_append.mp hw' with hw' | hw'
  · exact (packWrites_name packSha packData idxData hw').2
  · rw [List.mem_singleton] at hw'
    rw [hw']
    exact ⟨ne_of_head (a := 'H') rfl packedRefs_head (by decide), head_ne_branchRef⟩

variable (s new packSha packData idxData branch)

/-- Between HEAD and the branch a start reads the branch that was asked for, or what HEAD names now. -/
theorem resolveHead_after_three : (s.after new packSha packData idxData branch 3).resolveHead branch =
    match branch.filter fun name => (s.objects.lookupRef (Bucket.branchRef name)).isSome with
    | some name => s.objects.resolveHead (some name)
    | none =>
      let ref := Bucket.branchRef ((targetBranch branch).rdropWhile isWhitespace)
      match s.objects.lookupRef ref with
      | some sha => .ok (sha, ref)
      | none => .error (.unresolvedRef ref) := by
  have hthree : s.after new packSha packData idxData branch 3 =
      s.objects.writeAll (packWrites packSha packData idxData ++
        [("HEAD".toList, asBytes ("ref: refs/heads/".toList ++ targetBranch branch ++ ['\n']))]) := rfl
  have href (name : Str) : (s.after new packSha packData idxData branch 3).lookupRef (Bucket.branchRef name) =
      s.objects.lookupRef (Bucket.branchRef name) :=
    Bucket.lookupRef_writeAll fun w hw =>
      ⟨(take_three_name le_rfl hw).2 name, (take_three_name le_rfl hw).1⟩
  have hhead : (s.after new packSha packData idxData branch 3).headRef =
      some (Bucket.branchRef ((targetBranch branch).rdropWhile isWhitespace)) := by
    rw [hthree, Bucket.headRef, Bucket.writeAll, List.foldl_append, List.foldl_cons, List.foldl_nil,
      Bucket.writeRapidObject, AList.lookup_insert, Option.bind_some, fromUtf8Lossy_asBytes, symbolicName_head]
  have hsymbolic := Bucket.resolveSymbolicHead_of_headRef hhead
  rw [href] at hsymbolic
  cases branch with
  | none => exact hsymbolic
  | some name =>
    rw [Bucket.resolveHead_some, href]
    cases hv : s.objects.lookupRef (Bucket.branchRef name) with
    | some v => simp only [Option.filter, hv, Option.isSome_some, if_true, Bucket.resolveHead_some]
    | none =>
      simp only [Option.filter, hv, Option.isSome_none, Bool.false_eq_true, if_false]
      exact hsymbolic

/-- The pack and its index are there once HEAD is about to be written. -/
theorem pack_after (k : Nat) :
    (s.after new packSha packData idxData branch (2 + k)).lookup (packObjectName packSha ".pack".toList) =
        some packData ∧
      (s.after new packSha packData idxData branch (2 + k)).lookup (packObjectName packSha ".idx".toList) =
        some idxData := by
  obtain ⟨rest, hrest, hnames⟩ : ∃ rest, s.completedCommitWrites new packSha packData idxData branch =
      packWrites packSha packData idxData ++ rest ∧ ∀ w ∈ rest, w.1[8]? ≠ some 'p' := by
    refine ⟨("HEAD".toList, _) :: (Bucket.branchRef (targetBranch branch), _) ::
      serverInfoWrites _ new branch, rfl, fun w hw => ?_⟩
    rw [List.mem_cons, List.mem_cons] at hw
    rcases hw with rfl | rfl | hw
    · exact fun h => absurd (show none = some 'p' from h) (by decide)
    · exact fun h => absurd (show some 'd' = some 'p' from h) (by decide)
    · simp only [serverInfoWrites, List.mem_cons, List.not_mem_nil, or_false] at hw
      rcases hw with rfl | rfl
      · exact fun h => absurd (show some 's' = some 'p' from h) (by decide)
      · exact fun h => absurd (show some 'i' = some 'p' from h) (by decide)
  have hlen : (packWrites packSha packData idxData).length = 2 := rfl
  have hkeep (suffix : Str) : (s.after new packSha packData idxData branch (2 + k)).lookup
      (packObjectName packSha suffix) =
      (s.objects.writeAll (packWrites packSha packData idxData)).lookup (packObjectName packSha suffix) := by
    have hchar : (packObjectName packSha suffix)[8]? = some 'p' := rfl
    rw [after, hrest, ← hlen, List.take_length_add_append, Bucket.writeAll, List.foldl_append, ← Bucket.writeAll]
    refine Bucket.lookup_writeAll fun w hw heq => hnames w (List.mem_of_mem_take hw) (heq ▸ hchar)
  rw [hkeep, hkeep]
  simp only [packWrites, Bucket.writeAll, List.foldl_cons, List.foldl_nil, Bucket.writeRapidObject,
    AList.lookup_insert, AList.lookup_insert_ne (packObjectName_pack_ne_idx packSha packSha), and_self]

end GcsGitStorage

theorem filter_eq_none {b : Bucket} {branch : Option Str}
    (h : ¬ ∃ name, branch = some name ∧ (b.lookupRef (Bucket.branchRef name)).isSome = true) :
    branch.filter (fun name => (b.lookupRef (Bucket.branchRef name)).isSome) = none := by
  cases branch with
  | none => rfl
  | some name =>
    have hnot : (b.lookupRef (Bucket.branchRef name)).isSome = false := by simpa using fun hn => h ⟨name, rfl, hn⟩
    simp [Option.filter, hnot]

/-- Where HEAD names an object that is not a ref, a start reads whatever is written there. -/
theorem resolveHead_of_named {b : Bucket} {ws : List (Str × Bytes)} (branch : Option Str) {name commitOid : Str}
    (hws : ∀ w ∈ ws, w.1 ≠ "HEAD".toList ∧ w.1 ≠ "packed-refs".toList ∧ ∀ name, w.1 ≠ Bucket.branchRef name)
    (hasked : ¬ ∃ name, branch = some name ∧ (b.lookupRef (Bucket.branchRef name)).isSome = true)
    (hhead : b.headRef = some name) (hvalue : (b.writeAll ws).lookupRef name = some commitOid) :
    (b.writeAll ws).resolveHead branch = .ok (commitOid, name) := by
  have hhead' : (b.writeAll ws).headRef = some name := by
    rw [Bucket.headRef, Bucket.lookup_writeAll fun w hw => (hws w hw).1, ← Bucket.headRef, hhead]
  have hsymbolic := Bucket.resolveSymbolicHead_of_headRef hhead'
  simp only [hvalue] at hsymbolic
  cases branch with
  | none => exact hsymbolic
  | some asked =>
    have hnone : b.lookupRef (Bucket.branchRef asked) = none := by
      rw [← Option.not_isSome_iff_eq_none]
      exact fun hsome => hasked ⟨asked, rfl, hsome⟩
    rw [Bucket.resolveHead_some, Bucket.lookupRef_writeAll fun w hw => ⟨(hws w hw).2.2 asked, (hws w hw).2.1⟩, hnone]
    exact hsymbolic

theorem exists_third (a b : Str) : ∃ c, IsOid c ∧ c ≠ a ∧ c ≠ b := by
  have hoid : ∀ c ∈ [List.replicate 40 'a', List.replicate 40 'b', List.replicate 40 'c'], IsOid c := by decide
  have hnodup : [List.replicate 40 'a', List.replicate 40 'b', List.replicate 40 'c'].Nodup := by decide
  by_contra hall
  have hsub : [List.replicate 40 'a', List.replicate 40 'b', List.replicate 40 'c'] ⊆ [a, b] := by
    intro c hc
    by_contra hnot
    simp only [List.mem_cons, List.not_mem_nil, or_false, not_or] at hnot
    exact hall ⟨c, hoid c hc, hnot⟩
  have hle := (List.subperm_of_subset hnodup hsub).length_le
  simp at hle

/-- Wherever the writes of a commit break off a start finds the old commit, or the new one with its pack,
exactly if the branch that was asked for is there, or HEAD may be made to name the target first. -/
theorem publish_crash_safe_iff (s : GcsGitStorage) (branch : Option Str) (old name new : Str)
    (h : s.objects.resolveHead branch = .ok (old, name)) (hnew : IsOid new) :
    (∀ packSha packData idxData k,
      FindsCommit (s.after new packSha packData idxData branch k) branch old new packSha packData idxData) ↔
      SafeToPublish s.objects branch old new := by
  constructor
  · intro hall
    by_cases hasked : ∃ n, branch = some n ∧ (s.objects.lookupRef (Bucket.branchRef n)).isSome = true
    · exact .inl hasked
    refine .inr ⟨fun packSha => ?_, ?_⟩
    · obtain ⟨other, hoid, hold, hne⟩ := exists_third old new
      have hbad {ws : List (Str × Bytes)} {ref : Str} {packData idxData : Bytes}
          (hws : ws ⊆ GcsGitStorage.packWrites packSha packData idxData) (hhead : s.objects.headRef = some ref)
          (hvalue : (s.objects.writeAll ws).lookupRef ref = some other)
          (hfinds : FindsCommit (s.objects.writeAll ws) branch old new packSha packData idxData) : False := by
        have hresolve := resolveHead_of_named branch
          (fun w hw => GcsGitStorage.packWrites_name packSha packData idxData (hws hw)) hasked hhead hvalue
        obtain ⟨commitOid, name', hfound, hcommit⟩ := hfinds
        rw [hresolve, Except.ok.injEq, Prod.mk.injEq] at hfound
        rcases hcommit with rfl | ⟨rfl, -⟩
        · exact hold hfound.1
        · exact hne hfound.1
      refine ⟨fun hhead => ?_, fun hhead => ?_⟩
      · have hfinds := hall packSha (asBytes (other ++ ['\n'])) [] 1
        exact hbad (List.cons_subset_cons _ (List.nil_subset _)) hhead (Bucket.lookupRef_write_ref _ _ _ hoid) hfinds
      · have hfinds := hall packSha [] (asBytes (other ++ ['\n'])) 2
        exact hbad (List.Subset.refl _) hhead (Bucket.lookupRef_write_ref _ _ _ hoid) hfinds
    · obtain ⟨commitOid, name', hresolve, hcommit⟩ := hall [] [] [] 3
      rw [GcsGitStorage.resolveHead_after_three, filter_eq_none hasked] at hresolve
      simp only at hresolve
      cases hv : s.objects.lookupRef
          (Bucket.branchRef ((GcsGitStorage.targetBranch branch).rdropWhile isWhitespace)) with
      | none => simp [hv] at hresolve
      | some v =>
        simp only [hv, Except.ok.injEq, Prod.mk.injEq] at hresolve
        exact ⟨v, rfl, by rw [hresolve.1]; exact hcommit.imp_right And.left⟩
  · intro hsafe packSha packData idxData k
    have hold (hsame : (s.after new packSha packData idxData branch k).resolveHead branch =
        s.objects.resolveHead branch) :
        FindsCommit (s.after new packSha packData idxData branch k) branch old new packSha packData idxData :=
      ⟨old, name, hsame.trans h, .inl rfl⟩
    by_cases hfour : 4 ≤ k
    · obtain ⟨j, rfl⟩ := Nat.exists_eq_add_of_le hfour
      obtain ⟨name', hresolve⟩ :=
        (GcsGitStorage.heads_writeAll s packSha packData idxData branch hnew j).resolveHead
      have hpack := GcsGitStorage.pack_after s new packSha packData idxData branch (2 + j)
      rw [← Nat.add_assoc] at hpack
      exact ⟨new, name', hresolve, .inr ⟨rfl, hpack⟩⟩
    · by_cases hasked : ∃ n, branch = some n ∧ (s.objects.lookupRef (Bucket.branchRef n)).isSome = true
      · obtain ⟨asked, rfl, hasked⟩ := hasked
        refine hold ?_
        obtain ⟨w, hw⟩ := Option.isSome_iff_exists.mp hasked
        have hsame : (s.after new packSha packData idxData (some asked) k).lookupRef (Bucket.branchRef asked) =
            s.objects.lookupRef (Bucket.branchRef asked) :=
          Bucket.lookupRef_writeAll fun w hw =>
            ⟨(GcsGitStorage.take_three_name (by omega) hw).2 asked,
              (GcsGitStorage.take_three_name (by omega) hw).1⟩
        rw [Bucket.resolveHead_some, Bucket.resolveHead_some, hsame, hw]
      · obtain ⟨hnames, v, hv, hvalue⟩ := hsafe.resolve_left hasked
        by_cases hthree : k = 3
        · subst hthree
          have hresolve := GcsGitStorage.resolveHead_after_three s new packSha packData idxData branch
          rw [filter_eq_none hasked] at hresolve
          simp only [hv] at hresolve
          refine ⟨v, _, hresolve, hvalue.imp_right fun heq => ⟨heq, ?_⟩⟩
          exact GcsGitStorage.pack_after s new packSha packData idxData branch 1
        · have hpacks {w : Str × Bytes}
              (hw : w ∈ (s.completedCommitWrites new packSha packData idxData branch).take k) :
              w ∈ GcsGitStorage.packWrites packSha packData idxData :=
            GcsGitStorage.mem_take_two (by omega) hw
          refine hold (Bucket.resolveHead_writeAll branch (fun w hw => ?_) fun w hw => ?_)
          · obtain ⟨hhead, hpacked, -⟩ := GcsGitStorage.packWrites_name packSha packData idxData (hpacks hw)
            refine ⟨hhead, hpacked, ?_⟩
            have hw := hpacks hw
            simp only [GcsGitStorage.packWrites, List.mem_cons, List.not_mem_nil, or_false] at hw
            rcases hw with rfl | rfl
            · exact (hnames packSha).1
            · exact (hnames packSha).2
          · exact (GcsGitStorage.packWrites_name packSha packData idxData (hpacks hw)).2.2

/-- A repository on `master` that is served without a branch, and a crash between HEAD and the branch. -/
theorem publish_crash_safe_master :
    FindsCommit ((repositoryOn "master".toList).after (List.replicate 40 'b') ['p'] [1] [2] none 3) none
      (List.replicate 40 'a') (List.replicate 40 'b') ['p'] [1] [2] := by
  refine (publish_crash_safe_iff (repositoryOn "master".toList) none (List.replicate 40 'a')
    "refs/heads/master".toList (List.replicate 40 'b') (by decide +kernel) (by decide)).mpr ?_ _ _ _ 3
  have hhead : (repositoryOn "master".toList).objects.headRef = some (Bucket.branchRef "master".toList) := by
    decide +kernel
  have hpack (packSha suffix : Str) :
      (repositoryOn "master".toList).objects.headRef ≠ some (GcsGitStorage.packObjectName packSha suffix) := by
    rw [hhead]
    exact fun heq => GcsGitStorage.ne_of_head (GcsGitStorage.branchRef_head _)
      (GcsGitStorage.packObjectName_head packSha suffix) (by decide) (Option.some.inj heq)
  exact .inr ⟨fun packSha => ⟨hpack packSha _, hpack packSha _⟩, List.replicate 40 'a', by decide +kernel, .inl rfl⟩

/-- Without a branch, on `main`: HEAD names `master` before there is such a branch. -/
theorem publish_not_crash_safe :
    ¬ ∀ (s : GcsGitStorage) (branch : Option Str) (old name new packSha : Str) (packData idxData : Bytes) (k : Nat),
      s.objects.resolveHead branch = .ok (old, name) → IsOid new →
      FindsCommit (s.after new packSha packData idxData branch k) branch old new packSha packData idxData := by
  intro h
  obtain ⟨commitOid, name, hresolve, -⟩ := h (repositoryOn "main".toList) none (List.replicate 40 'a')
    "refs/heads/main".toList (List.replicate 40 'b') ['p'] [1] [2] 3 (by decide +kernel) (by decide)
  have hfails : (match ((repositoryOn "main".toList).after (List.replicate 40 'b') ['p'] [1] [2] none 3).resolveHead
      none with | .ok _ => true | .error _ => false) = false := by decide +kernel
  rw [hresolve] at hfails
  simp at hfails

end GitNfs
