import GitNfs.Git.Engine

/-! # Inodes

The tables of the server's inodes. A directory gets its children from its tree when it is first asked
for them. A call that fails leaves behind what it had done until then.
-/

namespace GitNfs

def isAppleMetadata (name : Str) : Bool :=
  "._".toList.isPrefixOf name ||
  [".DS_Store".toList, ".localized".toList, ".Spotlight-V100".toList, ".Trashes".toList,
    ".fseventsd".toList, ".TemporaryItems".toList, ".VolumeIcon.icns".toList].contains name

abbrev rootInode : Nat := 1

structure VfsNode where
  id : Nat
  parentId : Nat
  name : Str
  oid : Str
  mode : TreeEntryMode
  isDir : Bool
  size : Nat
  isDeleted : Bool
  deriving DecidableEq, Repr

structure VfsManager where
  nodes : Nat → Option VfsNode
  childMap : Nat × Str → Option Nat
  dirChildren : Nat → Option (List Nat)
  nextInode : Nat

namespace VfsManager

def new (rootOid : Str) : VfsManager where
  nodes := Function.update (fun _ => none) rootInode
    (some ⟨rootInode, rootInode, ['/'], rootOid, .directory, true, 4096, false⟩)
  childMap := fun _ => none
  dirChildren := fun _ => none
  nextInode := 2

def getNode (v : VfsManager) (id : Nat) : Option VfsNode :=
  match v.nodes id with
  | some node => if node.isDeleted then none else some node
  | none => none

/-! ## Populating a directory -/

/-- The size a child shows before anything is known of its blob. -/
def initialSize (g : GitEngine) (e : GitTreeEntry) : Nat :=
  if e.mode.isDir then 4096 else (g.blobSize e.oid).getD (1024 * 1024)

def entryNode (g : GitEngine) (dirId id : Nat) (e : GitTreeEntry) : VfsNode :=
  ⟨id, dirId, e.name, e.oid, e.mode, e.mode.isDir, initialSize g e, false⟩

/-- The loop over the entries of a tree: the children, the new ones among them, the next inode. -/
def populateEntries (g : GitEngine) (v : VfsManager) (dirId : Nat) :
    List GitTreeEntry → Nat → List Nat × List VfsNode × Nat
  | [], next => ([], [], next)
  | e :: es, next =>
    match v.childMap (dirId, e.name) with
    | some id =>
      let (ids, news, n) := populateEntries g v dirId es next
      (id :: ids, news, n)
    | none =>
      let (ids, news, n) := populateEntries g v dirId es (next + 1)
      (next :: ids, entryNode g dirId next e :: news, n)

def insertNode (v : VfsManager) (node : VfsNode) : VfsManager :=
  { v with nodes := Function.update v.nodes node.id (some node)
           childMap := Function.update v.childMap (node.parentId, node.name) (some node.id) }

def setDirChildren (v : VfsManager) (dirId : Nat) (ids : List Nat) : VfsManager :=
  { v with dirChildren := Function.update v.dirChildren dirId (some ids) }

def treeEntries (g : GitEngine) (oid : Str) : List GitTreeEntry :=
  match g.getTree oid with
  | some t => t.entries
  | none => []

/-- What a directory becomes when its children are asked for the first time. -/
def populate (g : GitEngine) (v : VfsManager) (dirId : Nat) (oid : Str) : VfsManager :=
  let (ids, news, next) := populateEntries g v dirId (treeEntries g oid) v.nextInode
  (news.foldl insertNode { v with nextInode := next }).setDirChildren dirId ids

def ensureDirPopulated (g : GitEngine) (v : VfsManager) (dirId : Nat) :
    Except Error Unit × VfsManager :=
  match v.dirChildren dirId with
  | some _ => (.ok (), v)
  | none =>
    match v.nodes dirId with
    | none => (.error (.dirNotFound dirId), v)
    | some node =>
      if node.isDir then (.ok (), v.populate g dirId node.oid)
      else (.error (.notADirectory dirId), v)

/-! ## Looking -/

/-- The child that `child_map` names, unless it is deleted. -/
def liveChild (v : VfsManager) (dirId : Nat) (name : Str) : Option Nat :=
  match v.childMap (dirId, name) with
  | some id => (v.getNode id).map fun _ => id
  | none => none

def lookup (g : GitEngine) (v : VfsManager) (dirId : Nat) (name : Str) : Except Error Nat × VfsManager :=
  if name = ['.'] then (.ok dirId, v)
  else if name = ['.', '.'] then
    match v.nodes dirId with
    | some node => (.ok node.parentId, v)
    | none => (.error (.dirNotFound dirId), v)
  else
    match v.liveChild dirId name with
    | some id => (.ok id, v)
    | none =>
      match v.ensureDirPopulated g dirId with
      | (.error e, v) => (.error e, v)
      | (.ok (), v) =>
        match v.liveChild dirId name with
        | some id => (.ok id, v)
        | none => (.error (.childNotFound name dirId), v)

def listDir (g : GitEngine) (v : VfsManager) (dirId : Nat) : Except Error (List VfsNode) × VfsManager :=
  match v.ensureDirPopulated g dirId with
  | (.error e, v) => (.error e, v)
  | (.ok (), v) => (.ok (((v.dirChildren dirId).getD []).filterMap v.getNode), v)

/-! ## Changing -/

def modifyNode (v : VfsManager) (id : Nat) (f : VfsNode → VfsNode) : VfsManager :=
  { v with nodes := Function.update v.nodes id ((v.nodes id).map f) }

/-- `dir_children.entry(dir_id).or_default().push(id)`. -/
def pushChild (v : VfsManager) (dirId id : Nat) : VfsManager :=
  v.setDirChildren dirId ((v.dirChildren dirId).getD [] ++ [id])

/-- A node that was not there before, under the next inode. -/
def addNode (v : VfsManager) (node : VfsNode) : VfsManager :=
  let v := { v with nextInode := v.nextInode + 1 }
  (v.insertNode node).pushChild node.parentId node.id

def createFile (g : GitEngine) (v : VfsManager) (dirId : Nat) (name : Str) (mode : TreeEntryMode) :
    Except Error VfsNode × VfsManager :=
  match v.ensureDirPopulated g dirId with
  | (.error e, v) => (.error e, v)
  | (.ok (), v) =>
    match (v.childMap (dirId, name)).bind fun id => (v.nodes id).map fun node => (id, node) with
    | some (id, node) =>
      -- a node of this name is used again, whatever its kind
      let revive (node : VfsNode) : VfsNode := { node with isDeleted := false, size := 0 }
      (.ok (revive node), v.modifyNode id revive)
    | none =>
      let node : VfsNode := ⟨v.nextInode, dirId, name, [], mode, false, 0, false⟩
      (.ok node, v.addNode node)

def mkdir (g : GitEngine) (v : VfsManager) (dirId : Nat) (name : Str) : Except Error VfsNode × VfsManager :=
  match v.ensureDirPopulated g dirId with
  | (.error e, v) => (.error e, v)
  | (.ok (), v) =>
    let node : VfsNode := ⟨v.nextInode, dirId, name, [], .directory, true, 4096, false⟩
    (.ok node, (v.addNode node).setDirChildren node.id [])

def dropChild (v : VfsManager) (dirId id : Nat) : VfsManager :=
  let kept := (v.dirChildren dirId).map fun ids => ids.filter fun childId => childId ≠ id
  { v with dirChildren := Function.update v.dirChildren dirId kept }

def setChild (v : VfsManager) (dirId : Nat) (name : Str) (id : Option Nat) : VfsManager :=
  { v with childMap := Function.update v.childMap (dirId, name) id }

def remove (g : GitEngine) (v : VfsManager) (dirId : Nat) (name : Str) : Except Error VfsNode × VfsManager :=
  match v.ensureDirPopulated g dirId with
  | (.error e, v) => (.error e, v)
  | (.ok (), v) =>
    match v.childMap (dirId, name) with
    | none => (.error (.childNotFound name dirId), v)
    | some id =>
      match v.nodes id with
      | none => (.error (.nodeNotFound id), v)
      | some node =>
        let kill (node : VfsNode) : VfsNode := { node with isDeleted := true }
        (.ok (kill node), ((v.modifyNode id kill).dropChild dirId id).setChild dirId name none)

def rename (g : GitEngine) (v : VfsManager) (fromDirId : Nat) (fromName : Str) (toDirId : Nat)
    (toName : Str) : Except Error Unit × VfsManager :=
  match v.ensureDirPopulated g fromDirId with
  | (.error e, v) => (.error e, v)
  | (.ok (), v) =>
    match v.ensureDirPopulated g toDirId with
    | (.error e, v) => (.error e, v)
    | (.ok (), v) =>
      match v.childMap (fromDirId, fromName) with
      | none => (.error (.sourceNotFound fromName), v)
      | some id =>
        match v.nodes id with
        | none => (.error (.nodeNotFound id), v)
        | some _ =>
          -- a destination that exists goes first, also when it is the node itself
          let v := (v.remove g toDirId toName).2
          let v := v.modifyNode id fun node => { node with parentId := toDirId, name := toName }
          let v := (v.setChild fromDirId fromName none).setChild toDirId toName (some id)
          (.ok (), (v.dropChild fromDirId id).pushChild toDirId id)

def updateFileSize (v : VfsManager) (id realSize : Nat) : VfsManager :=
  v.modifyNode id fun node => { node with size := realSize }

/-! ## Paths -/

/-- The names from the root down to `curr`. A walk that passes more nodes than there are inodes comes
back to one of them and never ends: `none`. -/
def getPathLoop (v : VfsManager) : Nat → Nat → Option (Except Error (List Str))
  | fuel, curr =>
    if curr = rootInode then some (.ok [])
    else
      match fuel with
      | 0 => none
      | fuel + 1 =>
        match v.nodes curr with
        | none => some (.error (.nodeNotFound curr))
        | some node =>
          if node.parentId = curr then some (.ok [node.name])
          else (v.getPathLoop fuel node.parentId).map fun r => r.map (· ++ [node.name])

def joinSlash (parts : List Str) : Str := ['/'].intercalate parts

def getPath (v : VfsManager) (id : Nat) : Option (Except Error Str) :=
  (v.getPathLoop v.nextInode id).map fun r => r.map joinSlash

def lookupParts (g : GitEngine) : VfsManager → Nat → List Str → Except Error Nat × VfsManager
  | v, curr, [] => (.ok curr, v)
  | v, curr, part :: parts =>
    if part = [] ∨ part = ['.'] then lookupParts g v curr parts
    else
      match v.lookup g curr part with
      | (.error e, v) => (.error e, v)
      | (.ok id, v) => lookupParts g v id parts

def lookupPath (g : GitEngine) (v : VfsManager) (path : Str) : Except Error Nat × VfsManager :=
  let clean := trimMatches '/' path
  if clean = [] then (.ok rootInode, v) else lookupParts g v rootInode (clean.splitOn '/')

def ensureDirs (g : GitEngine) : VfsManager → Nat → List Str → Except Error Nat × VfsManager
  | v, curr, [] => (.ok curr, v)
  | v, curr, part :: parts =>
    match v.lookup g curr part with
    | (.ok id, v) => ensureDirs g v id parts
    | (.error _, v) =>
      match v.mkdir g curr part with
      | (.error e, v) => (.error e, v)
      | (.ok node, v) => ensureDirs g v node.id parts

def ensureParentDirs (g : GitEngine) (v : VfsManager) (path : Str) : Except Error (Nat × Str) × VfsManager :=
  let parts := components (trimMatches '/' path)
  match parts.getLast? with
  | none => (.error .emptyPath, v)
  | some basename =>
    match ensureDirs g v rootInode parts.dropLast with
    | (.error e, v) => (.error e, v)
    | (.ok dirId, v) => (.ok (dirId, basename), v)

end VfsManager

end GitNfs
