import GitNfs.Git.Object
import Mathlib.Data.List.AList

/-! # The staging store

The files that were changed since the last commit, each in a file of its own. A staging operation is
told at which of its steps the file system fails it, if at all.
-/

namespace GitNfs

structure StagingStore where
  stagedNodes : AList fun _ : Nat => Nat
  /-- The staging directory. -/
  files : Nat → Option Bytes
  deletedNodes : List Nat
  changedPaths : List Str

/-- The step at which the file system fails a staging operation. -/
inductive IoFault where
  | create
  | copy (copied : Nat)
  | openFile
  | seek
  | write (written : Nat)
  | flush
  | setLen
  deriving DecidableEq, Repr

inductive ResetFault where
  | removeDir
  | createDir
  deriving DecidableEq, Repr

/-- What `write_all` at an offset leaves: a gap is filled with zeros, and no data changes nothing. -/
def writeBytes (content : Bytes) (offset : Nat) (data : Bytes) : Bytes :=
  if data = [] then content
  else content.take offset ++ List.replicate (offset - content.length) 0 ++ data ++
    content.drop (offset + data.length)

/-- `File::set_len`. -/
def setLen (content : Bytes) (size : Nat) : Bytes :=
  content.take size ++ List.replicate (size - content.length) 0

namespace StagingStore

def new : StagingStore := ⟨∅, fun _ => none, [], []⟩

def isStaged (st : StagingStore) (id : Nat) : Bool := (st.stagedNodes.lookup id).isSome

def isDeleted (st : StagingStore) (id : Nat) : Bool := st.deletedNodes.contains id

def listDeletedNodes (st : StagingStore) : List Nat := st.deletedNodes

def markDeleted (st : StagingStore) (id : Nat) : StagingStore :=
  { st with deletedNodes := st.deletedNodes.insert id }

def getSize (st : StagingStore) (id : Nat) : Option Nat := st.stagedNodes.lookup id

def setFile (st : StagingStore) (id : Nat) (content : Bytes) : StagingStore :=
  { st with files := Function.update st.files id (some content) }

def setStaged (st : StagingStore) (id size : Nat) : StagingStore :=
  { st with stagedNodes := st.stagedNodes.insert id size }

def createFile (st : StagingStore) (id : Nat) (fault : Option IoFault) : Except Error Unit × StagingStore :=
  match fault with
  | some _ => (.error (.stagedFile id), st)
  | none => (.ok (), (st.setFile id []).setStaged id 0)

/-- The staging file of a node, made out of the initial data if there is none. -/
def openStaged (st : StagingStore) (id : Nat) (initialData : Option Bytes) (fault : Option IoFault) :
    Except Error Bytes × StagingStore :=
  match st.files id with
  | some content =>
    if fault = some .openFile then (.error (.stagedFile id), st) else (.ok content, st)
  | none =>
    let base := initialData.getD []
    match fault with
    | some .create => (.error (.stagedFile id), st)
    | some (.copy copied) => (.error (.stagedFile id), st.setFile id (base.take copied))
    | some .openFile => (.error (.stagedFile id), st.setFile id base)
    | _ => (.ok base, st.setFile id base)

def writeAt (st : StagingStore) (id offset : Nat) (data : Bytes) (initialData : Option Bytes)
    (fault : Option IoFault) : Except Error Nat × StagingStore :=
  match st.openStaged id initialData fault with
  | (.error e, st) => (.error e, st)
  | (.ok content, st) =>
    match fault with
    | some .seek => (.error (.stagedFile id), st)
    | some (.write written) =>
      (.error (.stagedFile id), st.setFile id (writeBytes content offset (data.take written)))
    | some .flush => (.error (.stagedFile id), st.setFile id (writeBytes content offset data))
    | _ =>
      let content := writeBytes content offset data
      (.ok content.length, (st.setFile id content).setStaged id content.length)

def truncate (st : StagingStore) (id newSize : Nat) (initialData : Option Bytes)
    (fault : Option IoFault) : Except Error Unit × StagingStore :=
  match st.openStaged id initialData fault with
  | (.error e, st) => (.error e, st)
  | (.ok content, st) =>
    match fault with
    | some .setLen => (.error (.stagedFile id), st)
    | _ => (.ok (), (st.setFile id (setLen content newSize)).setStaged id newSize)

def readAt (st : StagingStore) (id offset count : Nat) : Option (Bytes × Bool) :=
  if st.isStaged id then
    match st.files id with
    | none => none
    | some content =>
      if content.length ≤ offset then some ([], true)
      else
        let toRead := min count (content.length - offset)
        some ((content.drop offset).take toRead, content.length ≤ offset + toRead)
  else none

/-- `none` for a node that is not staged. -/
def getStagedContent (st : StagingStore) (id : Nat) : Except Error (Option Bytes) :=
  if st.isStaged id then
    match st.files id with
    | some content => .ok (some content)
    | none => .error (.stagedFile id)
  else .ok none

def listStagedNodes (st : StagingStore) : List Nat := st.stagedNodes.keys

def recordChangedPath (st : StagingStore) (path : Str) : StagingStore :=
  let clean := trimMatches '/' (trim path)
  if clean = [] then st else { st with changedPaths := st.changedPaths.insert clean }

def listChangedPaths (st : StagingStore) : List Str := st.changedPaths

def hasModifications (st : StagingStore) : Bool :=
  !st.stagedNodes.keys.isEmpty || !st.deletedNodes.isEmpty || !st.changedPaths.isEmpty

/-- That the old directory could not be removed goes unnoticed. -/
def reset (st : StagingStore) (fault : Option ResetFault) : Except Error Unit × StagingStore :=
  match fault with
  | some .removeDir => (.ok (), { new with files := st.files })
  | some .createDir => (.error .io, new)
  | none => (.ok (), new)

/-! ## Operations that do not fail -/

/-- What the staging file of a node holds once it is open. -/
def opened (st : StagingStore) (id : Nat) (initialData : Option Bytes) : Bytes :=
  (st.files id).getD (initialData.getD [])

/-- A staging file and the size that is noted for it. -/
def stored (st : StagingStore) (id : Nat) (content : Bytes) : StagingStore :=
  (st.setFile id content).setStaged id content.length

variable (st : StagingStore) (id : Nat) (content : Bytes)

@[simp] theorem stored_lookup (j : Nat) :
    (st.stored id content).stagedNodes.lookup j =
      if j = id then some content.length else st.stagedNodes.lookup j := by
  split_ifs with hj
  · subst hj
    exact AList.lookup_insert _
  · exact AList.lookup_insert_ne hj

@[simp] theorem stored_files (j : Nat) :
    (st.stored id content).files j = if j = id then some content else st.files j :=
  Function.update_apply _ _ _ _

@[simp] theorem stored_isDeleted (j : Nat) : (st.stored id content).isDeleted j = st.isDeleted j := rfl

theorem setFile_setFile (content' : Bytes) :
    (st.setFile id content).setFile id content' = st.setFile id content' := by
  simp only [setFile, Function.update_idem]

theorem openStaged_ok (initialData : Option Bytes) :
    ∃ st', st.openStaged id initialData none = (.ok (st.opened id initialData), st') ∧
      ∀ content, st'.setFile id content = st.setFile id content := by
  unfold openStaged opened
  cases st.files id with
  | some content => exact ⟨st, by simp, fun _ => rfl⟩
  | none => exact ⟨_, rfl, setFile_setFile st id _⟩

theorem writeAt_ok (offset : Nat) (data : Bytes) (initialData : Option Bytes) :
    st.writeAt id offset data initialData none =
      (.ok (writeBytes (st.opened id initialData) offset data).length,
        st.stored id (writeBytes (st.opened id initialData) offset data)) := by
  obtain ⟨st', hopen, hset⟩ := openStaged_ok st id initialData
  unfold writeAt
  rw [hopen]
  simp only [hset]
  rfl

theorem setLen_length (size : Nat) : (setLen content size).length = size := by
  unfold setLen
  simp only [List.length_append, List.length_take, List.length_replicate]
  omega

theorem truncate_ok (newSize : Nat) (initialData : Option Bytes) :
    st.truncate id newSize initialData none =
      (.ok (), st.stored id (setLen (st.opened id initialData) newSize)) := by
  obtain ⟨st', hopen, hset⟩ := openStaged_ok st id initialData
  unfold truncate
  rw [hopen]
  simp only [hset, stored, setLen_length]

theorem createFile_ok : st.createFile id none = (.ok (), st.stored id []) := rfl

end StagingStore

end GitNfs
