import GitNfs.Git.CommitMessage
import GitNfs.Staging

/-! # Rebuilding the trees of a commit -/

namespace GitNfs

def sortKey (name : Str) (isDir : Bool) : Bytes := asBytes name ++ if isDir then [0x2F] else []

/-- Git's order of entries: a directory sorts as if its name ended in a slash. -/
def compareTreeEntries (nameA : Str) (isDirA : Bool) (nameB : Str) (isDirB : Bool) : Ordering :=
  compareBytes (sortKey nameA isDirA) (sortKey nameB isDirB)

abbrev NewObjects := AList fun _ : Str => GitObjectToPack

/-! ## Blobs -/

def setOid (v : VfsManager) (id : Nat) (oid : Str) : VfsManager :=
  v.modifyNode id fun node => { node with oid := oid }

/-- Every staged node that is live gets the id of its content, and the content is an object. -/
def stagedBlobs (staging : StagingStore) :
    List Nat → VfsManager → NewObjects → Except Error (VfsManager × NewObjects)
  | [], v, newObjects => .ok (v, newObjects)
  | id :: ids, v, newObjects =>
    match v.getNode id with
    | none => stagedBlobs staging ids v newObjects
    | some node =>
      if isAppleMetadata node.name then stagedBlobs staging ids v newObjects
      else
        match staging.getStagedContent id with
        | .error e => .error e
        | .ok none => stagedBlobs staging ids v newObjects
        | .ok (some content) =>
          let sha := computeGitSha1 .blob content
          stagedBlobs staging ids (setOid v id sha) (newObjects.insert sha ⟨sha, .blob, content⟩)

/-! ## Dirty directories -/

/-- The directories from one staged or deleted node up to the root. The walk stops at a node that is
deleted, and `none` is a walk that comes back to where it was. -/
def dirtyWalk (v : VfsManager) : Nat → Nat → List Nat → Option (List Nat)
  | fuel, curr, dirty =>
    match v.getNode curr with
    | none => some dirty
    | some node =>
      let dirty := if node.isDir then dirty.insert node.id else dirty
      let dirty := dirty.insert node.parentId
      if node.parentId = rootInode ∨ node.parentId = curr then some dirty
      else
        match fuel with
        | 0 => none
        | fuel + 1 => dirtyWalk v fuel node.parentId dirty

def dirtyDirs (v : VfsManager) (ids : List Nat) : Option (List Nat) :=
  ids.foldlM (fun dirty id => dirtyWalk v v.nextInode id dirty) [rootInode]

/-! ## Trees -/

/-- The children a tree is written from, in Git's order. -/
def validChildren (staging : StagingStore) (children : List VfsNode) : List VfsNode :=
  sortBy (fun a b => compareTreeEntries a.name a.isDir b.name b.isDir)
    (children.filter fun c => !isAppleMetadata c.name && !staging.isDeleted c.id)

abbrev TreeResult (α : Type) := Option (Except Error α × VfsManager × NewObjects)

/-- The loop over the children of one directory, where `rebuild` is the call for a subdirectory. -/
def rebuildChildren (dirty : List Nat) (rebuild : Nat → VfsManager → NewObjects → TreeResult Str) :
    List VfsNode → VfsManager → NewObjects → Bytes → TreeResult Bytes
  | [], v, newObjects, rawTree => some (.ok rawTree, v, newObjects)
  | child :: children, v, newObjects, rawTree =>
    match
      if child.isDir && dirty.contains child.id then rebuild child.id v newObjects
      else some (.ok child.oid, v, newObjects) with
    | none => none
    | some (.error e, v, newObjects) => some (.error e, v, newObjects)
    | some (.ok childOid, v, newObjects) =>
      if childOid = [] then rebuildChildren dirty rebuild children v newObjects rawTree
      else
        match hexDecode childOid with
        | none => some (.error (.invalidHex childOid), v, newObjects)
        | some sha =>
          rebuildChildren dirty rebuild children v newObjects (rawTree ++ rawEntry child.mode child.name sha)

/-- `fuel` bounds the depth of the directories. -/
def rebuildTreeRecursive (g : GitEngine) (staging : StagingStore) (dirty : List Nat) :
    Nat → Nat → VfsManager → NewObjects → TreeResult Str
  | 0, _, _, _ => none
  | fuel + 1, dirId, v, newObjects =>
    match v.listDir g dirId with
    | (.error e, v) => some (.error e, v, newObjects)
    | (.ok children, v) =>
      match
        rebuildChildren dirty (rebuildTreeRecursive g staging dirty fuel)
          (validChildren staging children) v newObjects [] with
      | none => none
      | some (.error e, v, newObjects) => some (.error e, v, newObjects)
      | some (.ok rawTree, v, newObjects) =>
        let treeSha := computeGitSha1 .tree rawTree
        match g.getTree treeSha with
        | some _ => some (.ok treeSha, v, newObjects)
        | none => some (.ok treeSha, v, newObjects.insert treeSha ⟨treeSha, .tree, rawTree⟩)

/-! ## The commit -/

/-- The paths of the nodes that have one. -/
def pathsOf (v : VfsManager) : List Nat → Option (List Str)
  | [] => some []
  | id :: ids =>
    match v.getPath id, pathsOf v ids with
    | some (.ok path), some paths => some (path :: paths)
    | some (.error _), some paths => some paths
    | _, _ => none

def effectiveCommitMessage (v : VfsManager) (staging : StagingStore) (ids : List Nat)
    (commitMessage : Str) : Option Str :=
  if trim commitMessage ≠ [] then some commitMessage
  else if staging.listChangedPaths ≠ [] then some (generateCommitMessage staging.listChangedPaths)
  else (pathsOf v ids).map generateCommitMessage

/-- The text of a commit, line by line. -/
def commitContent (treeOid parentOid author : Str) (timestamp : Nat) (message : Str) : Str :=
  let signature := author ++ ' ' :: (decimal timestamp ++ " +0000".toList)
  [ "tree ".toList ++ treeOid, "parent ".toList ++ parentOid, "author ".toList ++ signature,
    "committer ".toList ++ signature, [], message ].flatMap (· ++ ['\n'])

structure RebuiltObjects where
  commitOid : Str
  rootTreeOid : Str
  objects : List GitObjectToPack
  deriving DecidableEq, Repr

def rebuildGitObjects (v : VfsManager) (staging : StagingStore) (g : GitEngine)
    (baseCommitOid author commitMessage : Str) (timestamp : Nat) : Option (Except Error RebuiltObjects) :=
  match stagedBlobs staging staging.listStagedNodes v ∅ with
  | .error e => some (.error e)
  | .ok (v, newObjects) =>
    let ids := staging.listStagedNodes ++ staging.listDeletedNodes
    match dirtyDirs v ids with
    | none => none
    | some dirty =>
      match rebuildTreeRecursive g staging dirty (v.nextInode + 1) rootInode v newObjects with
      | none => none
      | some (.error e, _, _) => some (.error e)
      | some (.ok rootTreeOid, v, newObjects) =>
        match effectiveCommitMessage v staging ids commitMessage with
        | none => none
        | some message =>
          let commitBytes := asBytes (commitContent rootTreeOid baseCommitOid author timestamp message)
          let commitOid := computeGitSha1 .commit commitBytes
          let newObjects := newObjects.insert commitOid ⟨commitOid, .commit, commitBytes⟩
          some (.ok ⟨commitOid, rootTreeOid, newObjects.entries.map Sigma.snd⟩)

/-! ## What a rebuilt commit says -/

theorem rebuildTreeRecursive_isOid {g : GitEngine} {staging : StagingStore} {dirty : List Nat}
    {fuel dirId : Nat} {v v' : VfsManager} {objs objs' : NewObjects} {treeSha : Str}
    (h : rebuildTreeRecursive g staging dirty fuel dirId v objs = some (.ok treeSha, v', objs')) :
    IsOid treeSha := by
  cases fuel with
  | zero => simp [rebuildTreeRecursive] at h
  | succ fuel =>
    rw [rebuildTreeRecursive] at h
    split at h
    · simp at h
    · split at h
      · simp at h
      · simp at h
      · simp only at h
        split at h <;>
        · simp only [Option.some.injEq, Prod.mk.injEq, Except.ok.injEq] at h
          exact h.1 ▸ computeGitSha1_isOid _ _

/-- What a commit that was rebuilt is made of. -/
theorem rebuildGitObjects_parts {v : VfsManager} {staging : StagingStore} {g : GitEngine}
    {base author message : Str} {timestamp : Nat} {rebuilt : RebuiltObjects}
    (h : rebuildGitObjects v staging g base author message timestamp = some (.ok rebuilt)) :
    ∃ v₁ objs dirty v₂ objs' text, stagedBlobs staging staging.listStagedNodes v ∅ = .ok (v₁, objs) ∧
      dirtyDirs v₁ (staging.listStagedNodes ++ staging.listDeletedNodes) = some dirty ∧
      rebuildTreeRecursive g staging dirty (v₁.nextInode + 1) rootInode v₁ objs =
        some (.ok rebuilt.rootTreeOid, v₂, objs') ∧
      rebuilt.commitOid =
        computeGitSha1 .commit (asBytes (commitContent rebuilt.rootTreeOid base author timestamp text)) ∧
      rebuilt.objects = (objs'.insert rebuilt.commitOid ⟨rebuilt.commitOid, .commit,
        asBytes (commitContent rebuilt.rootTreeOid base author timestamp text)⟩).entries.map Sigma.snd := by
  unfold rebuildGitObjects at h
  split at h
  · simp at h
  rename_i v₁ objs hblobs
  simp only at h
  split at h
  · simp at h
  rename_i dirty hdirty
  split at h
  · simp at h
  · simp at h
  rename_i hrec
  split at h
  · simp at h
  rename_i text _
  simp only [Option.some.injEq, Except.ok.injEq] at h
  subst h
  exact ⟨v₁, objs, dirty, _, _, text, hblobs, hdirty, hrec, rfl, rfl⟩

/-- The root tree does not hang on what the commit says. -/
theorem rebuildGitObjects_rootTreeOid {v : VfsManager} {staging : StagingStore} {g : GitEngine}
    {base author message base' author' message' : Str} {timestamp timestamp' : Nat}
    {rebuilt rebuilt' : RebuiltObjects}
    (h : rebuildGitObjects v staging g base author message timestamp = some (.ok rebuilt))
    (h' : rebuildGitObjects v staging g base' author' message' timestamp' = some (.ok rebuilt')) :
    rebuilt.rootTreeOid = rebuilt'.rootTreeOid := by
  obtain ⟨v₁, objs, dirty, v₂, objs₂, -, hblobs, hdirty, hrec, -, -⟩ := rebuildGitObjects_parts h
  obtain ⟨v₁', objs', dirty', v₂', objs₂', -, hblobs', hdirty', hrec', -, -⟩ := rebuildGitObjects_parts h'
  rw [hblobs, Except.ok.injEq, Prod.mk.injEq] at hblobs'
  obtain ⟨rfl, rfl⟩ := hblobs'
  rw [hdirty, Option.some.injEq] at hdirty'
  subst hdirty'
  rw [hrec, Option.some.injEq, Prod.mk.injEq, Except.ok.injEq] at hrec'
  exact hrec'.1

/-- The first object is the commit, and it names the base as its parent. -/
theorem rebuildGitObjects_commit {v : VfsManager} {staging : StagingStore} {g : GitEngine}
    {base author message : Str} {timestamp : Nat} {rebuilt : RebuiltObjects}
    (h : rebuildGitObjects v staging g base author message timestamp = some (.ok rebuilt)) :
    IsOid rebuilt.rootTreeOid ∧ IsOid rebuilt.commitOid ∧ ∃ message objects,
      rebuilt.objects = ⟨rebuilt.commitOid, .commit,
        asBytes (commitContent rebuilt.rootTreeOid base author timestamp message)⟩ :: objects := by
  obtain ⟨v₁, objs, dirty, v₂, objs', text, -, -, hroot, hoid, hobjects⟩ := rebuildGitObjects_parts h
  refine ⟨rebuildTreeRecursive_isOid hroot, hoid ▸ computeGitSha1_isOid _ _, text, ?_⟩
  rw [AList.entries_insert] at hobjects
  exact ⟨_, hobjects⟩

/-! ## Every object has the id of its content -/

def NewObjects.Named (objs : NewObjects) : Prop :=
  ∀ k obj, objs.lookup k = some obj → obj.oid = computeGitSha1 obj.objType obj.data

theorem NewObjects.Named.insert {objs : NewObjects} (h : objs.Named) (k : Str) {obj : GitObjectToPack}
    (hobj : obj.oid = computeGitSha1 obj.objType obj.data) : NewObjects.Named (AList.insert k obj objs) := by
  intro k' obj' hlookup
  by_cases hk : k' = k
  · subst hk
    rw [AList.lookup_insert, Option.some.injEq] at hlookup
    exact hlookup ▸ hobj
  · rw [AList.lookup_insert_ne hk] at hlookup
    exact h k' obj' hlookup

theorem stagedBlobs_named {staging : StagingStore} {ids : List Nat} {v v' : VfsManager}
    {objs objs' : NewObjects} (h : stagedBlobs staging ids v objs = .ok (v', objs')) (hobjs : objs.Named) :
    objs'.Named := by
  induction ids generalizing v objs with
  | nil =>
    simp only [stagedBlobs, Except.ok.injEq, Prod.mk.injEq] at h
    exact h.2 ▸ hobjs
  | cons id ids ih =>
    rw [stagedBlobs] at h
    split at h
    · exact ih h hobjs
    · split_ifs at h
      · exact ih h hobjs
      · split at h
        · simp at h
        · exact ih h hobjs
        · exact ih h (hobjs.insert _ rfl)

theorem rebuildChildren_named {dirty : List Nat} {rebuild : Nat → VfsManager → NewObjects → TreeResult Str}
    (hrebuild : ∀ id v objs res v' objs', rebuild id v objs = some (res, v', objs') → objs.Named → objs'.Named)
    {children : List VfsNode} {v v' : VfsManager} {objs objs' : NewObjects} {raw : Bytes}
    {res : Except Error Bytes} (h : rebuildChildren dirty rebuild children v objs raw = some (res, v', objs'))
    (hobjs : objs.Named) : objs'.Named := by
  induction children generalizing v objs raw with
  | nil =>
    simp only [rebuildChildren, Option.some.injEq, Prod.mk.injEq] at h
    exact h.2.2 ▸ hobjs
  | cons child children ih =>
    have hchild : ∀ res v₁ objs₁,
        (if child.isDir && dirty.contains child.id then rebuild child.id v objs
          else some (.ok child.oid, v, objs)) = some (res, v₁, objs₁) → objs₁.Named := by
      intro res v₁ objs₁ heq
      split_ifs at heq
      · exact hrebuild _ _ _ _ _ _ heq hobjs
      · simp only [Option.some.injEq, Prod.mk.injEq] at heq
        exact heq.2.2 ▸ hobjs
    rw [rebuildChildren] at h
    split at h
    · simp at h
    · rename_i heq
      simp only [Option.some.injEq, Prod.mk.injEq] at h
      exact h.2.2 ▸ hchild _ _ _ heq
    · rename_i heq
      split_ifs at h
      · exact ih h (hchild _ _ _ heq)
      · split at h
        · simp only [Option.some.injEq, Prod.mk.injEq] at h
          exact h.2.2 ▸ hchild _ _ _ heq
        · exact ih h (hchild _ _ _ heq)

theorem rebuildTreeRecursive_named {g : GitEngine} {staging : StagingStore} {dirty : List Nat} {fuel : Nat} :
    ∀ id v objs res v' objs', rebuildTreeRecursive g staging dirty fuel id v objs = some (res, v', objs') →
      objs.Named → objs'.Named := by
  induction fuel with
  | zero =>
    intro id v objs res v' objs' h
    simp [rebuildTreeRecursive] at h
  | succ fuel ih =>
    intro id v objs res v' objs' h hobjs
    rw [rebuildTreeRecursive] at h
    split at h
    · simp only [Option.some.injEq, Prod.mk.injEq] at h
      exact h.2.2 ▸ hobjs
    · split at h
      · simp at h
      · rename_i heq
        simp only [Option.some.injEq, Prod.mk.injEq] at h
        exact h.2.2 ▸ rebuildChildren_named ih heq hobjs
      · rename_i heq
        have hnamed := rebuildChildren_named ih heq hobjs
        simp only at h
        split at h <;> simp only [Option.some.injEq, Prod.mk.injEq] at h
        · exact h.2.2 ▸ hnamed
        · exact h.2.2 ▸ hnamed.insert _ rfl

theorem NewObjects.mem_values {objs : NewObjects} {obj : GitObjectToPack} :
    obj ∈ objs.entries.map Sigma.snd ↔ ∃ k, objs.lookup k = some obj := by
  constructor
  · intro hobj
    obtain ⟨e, he, rfl⟩ := List.mem_map.mp hobj
    exact ⟨e.1, AList.mem_lookup_iff.mpr he⟩
  · rintro ⟨k, hk⟩
    exact List.mem_map.mpr ⟨_, AList.mem_lookup_iff.mp hk, rfl⟩

theorem rebuildGitObjects_named {v : VfsManager} {staging : StagingStore} {g : GitEngine}
    {base author message : Str} {timestamp : Nat} {rebuilt : RebuiltObjects}
    (h : rebuildGitObjects v staging g base author message timestamp = some (.ok rebuilt)) :
    ∀ obj ∈ rebuilt.objects, obj.oid = computeGitSha1 obj.objType obj.data := by
  obtain ⟨v₁, objs, dirty, v₂, objs', text, hblobs, -, hroot, hoid, hobjects⟩ := rebuildGitObjects_parts h
  have hempty : NewObjects.Named ∅ := by
    intro k obj hk
    simp at hk
  have hnamed := rebuildTreeRecursive_named _ _ _ _ _ _ hroot (stagedBlobs_named hblobs hempty)
  intro obj hobj
  rw [hobjects, NewObjects.mem_values] at hobj
  obtain ⟨k, hk⟩ := hobj
  exact hnamed.insert _ hoid k obj hk

end GitNfs
