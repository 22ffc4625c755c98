import GitNfs.Wal.Manager

/-! # The NFS file system

A handler is given the file name as the bytes of the request. It comes back with its answer, the new
state and what it hands to `log_mutation`, whose errors it drops. `none` is a handler that never answers,
because the walk up to the root does not end.
-/

namespace GitNfs

inductive NfsStat where
  | noent
  | io
  | notdir
  | isdir
  | inval
  | rofs
  deriving DecidableEq, Repr

inductive Ftype where
  | dir
  | lnk
  | reg
  deriving DecidableEq, Repr

/-- The attributes that depend on the node. -/
structure Fattr where
  ftype : Ftype
  mode : Nat
  nlink : Nat
  size : Nat
  used : Nat
  fileid : Nat
  deriving DecidableEq, Repr

structure Fs where
  vfs : VfsManager
  staging : StagingStore
  lastMutationTime : Nat
  hasUncommittedChanges : Bool

structure Handled (α : Type) where
  answer : Except NfsStat α
  fs : Fs
  logged : Option WalPayload

namespace Fs

def new (rootOid : Str) : Fs := ⟨VfsManager.new rootOid, StagingStore.new, 0, false⟩

/-- `now` counts nanoseconds, like the timestamps of the log. -/
def recordMutation (fs : Fs) (now : Nat) (path : Str) : Fs :=
  { fs with staging := fs.staging.recordChangedPath path
            lastMutationTime := now / 10 ^ 9
            hasUncommittedChanges := true }

def nodeToFattr3 (g : GitEngine) (fs : Fs) (node : VfsNode) : Fattr :=
  let size := ((fs.staging.getSize node.id).or (g.blobSize node.oid)).getD node.size
  { ftype := if node.isDir then .dir else if node.mode.isSymlink then .lnk else .reg
    mode := node.mode.posixMode % 0o1000
    nlink := if node.isDir then 2 else 1
    size := size
    used := size
    fileid := node.id }

/-- The attributes of a node as it stands now: handlers keep a reference to the node, not a copy. -/
def attrOf (g : GitEngine) (fs : Fs) (node : VfsNode) : Fattr :=
  nodeToFattr3 g fs ((fs.vfs.nodes node.id).getD node)

/-- The node of a file handle, unless it was removed. -/
def liveNode (fs : Fs) (id : Nat) : Except NfsStat VfsNode :=
  if fs.staging.isDeleted id then .error .noent
  else
    match fs.vfs.getNode id with
    | some node => .ok node
    | none => .error .noent

def setVfs (fs : Fs) (vfs : VfsManager) : Fs := { fs with vfs }

/-! ## Reading -/

def lookup (g : GitEngine) (fs : Fs) (dirid : Nat) (filename : Bytes) : Except NfsStat Nat × Fs :=
  match fs.vfs.lookup g dirid (fromUtf8Lossy filename) with
  | (.ok id, vfs) => (if fs.staging.isDeleted id then .error .noent else .ok id, fs.setVfs vfs)
  | (.error _, vfs) => (.error .noent, fs.setVfs vfs)

def getattr (g : GitEngine) (fs : Fs) (id : Nat) : Except NfsStat Fattr × Fs :=
  match fs.liveNode id with
  | .error e => (.error e, fs)
  | .ok node =>
    let fs :=
      if !node.isDir && !fs.staging.isStaged id && node.oid ≠ [] then
        match (g.blobSize node.oid).or ((g.getBlob node.oid).toOption.map List.length) with
        | some len => fs.setVfs (fs.vfs.updateFileSize id len)
        | none => fs
      else fs
    (.ok (fs.attrOf g node), fs)

def read (g : GitEngine) (fs : Fs) (id offset count : Nat) : Except NfsStat (Bytes × Bool) × Fs :=
  match fs.liveNode id with
  | .error e => (.error e, fs)
  | .ok node =>
    if node.isDir then (.error .isdir, fs)
    else
      match fs.staging.readAt id offset count with
      | some res => (.ok res, fs)
      | none =>
        if node.oid = [] then (.ok ([], true), fs)
        else
          match g.getBlob node.oid with
          | .error _ => (.error .io, fs)
          | .ok blob =>
            let fs := fs.setVfs (fs.vfs.updateFileSize id blob.length)
            if blob.length ≤ offset then (.ok ([], true), fs)
            else
              let toRead := min count (blob.length - offset)
              (.ok ((blob.drop offset).take toRead, blob.length ≤ offset + toRead), fs)

structure DirEntry where
  fileid : Nat
  name : Str
  attr : Fattr
  deriving DecidableEq, Repr

/-- A page of a directory, and whether it is the last one. -/
def readdir (g : GitEngine) (fs : Fs) (dirid startAfter maxEntries : Nat) :
    Except NfsStat (List DirEntry × Bool) × Fs :=
  match fs.vfs.getNode dirid with
  | none => (.error .noent, fs)
  | some dirNode =>
    if !dirNode.isDir then (.error .notdir, fs)
    else
      match fs.vfs.listDir g dirid with
      | (.error _, vfs) => (.error .io, fs.setVfs vfs)
      | (.ok children, vfs) =>
        let fs := fs.setVfs vfs
        let parentNode := (fs.vfs.getNode dirNode.parentId).getD dirNode
        let entry (id : Nat) (name : Str) (node : VfsNode) : DirEntry := ⟨id, name, nodeToFattr3 g fs node⟩
        let all := entry dirid ['.'] dirNode :: entry dirNode.parentId ['.', '.'] parentNode ::
          (children.filter fun c => !fs.staging.isDeleted c.id).map fun c => entry c.id c.name c
        let startIdx :=
          if startAfter = 0 then 0
          else
            match all.findIdx? fun e => e.fileid = startAfter with
            | some idx => idx + 1
            | none => 0
        let endIdx := min (startIdx + maxEntries) all.length
        (.ok ((all.take endIdx).drop startIdx, all.length ≤ endIdx), fs)

def readlink (g : GitEngine) (fs : Fs) (id : Nat) : Except NfsStat Bytes :=
  match fs.vfs.getNode id with
  | none => .error .noent
  | some node =>
    if !node.mode.isSymlink then .error .inval
    else
      match g.getBlob node.oid with
      | .ok data => .ok data
      | .error _ => .error .io

/-! ## Changing the content of a file -/

/-- What `write` does before it asks for the path. -/
def applyWrite (g : GitEngine) (fs : Fs) (id offset : Nat) (data : Bytes) (fault : Option IoFault) :
    Except NfsStat VfsNode × Fs :=
  match fs.liveNode id with
  | .error e => (.error e, fs)
  | .ok node =>
    if node.isDir then (.error .isdir, fs)
    else
      match fs.staging.writeAt id offset data (Replay.baseData g fs.staging node) fault with
      | (.error _, staging) => (.error .io, { fs with staging })
      | (.ok newLen, staging) => (.ok node, { fs with staging, vfs := fs.vfs.updateFileSize id newLen })

/-- What `setattr` does before it asks for the path, when it is given a size. -/
def applySetSize (g : GitEngine) (fs : Fs) (id newSize : Nat) (fault : Option IoFault) :
    Except NfsStat VfsNode × Fs :=
  match fs.liveNode id with
  | .error e => (.error e, fs)
  | .ok node =>
    if node.isDir then (.error .isdir, fs)
    else
      match fs.staging.truncate id newSize (Replay.baseData g fs.staging node) fault with
      | (.error _, staging) => (.error .io, { fs with staging })
      | (.ok (), staging) => (.ok node, { fs with staging, vfs := fs.vfs.updateFileSize id newSize })

/-- How `write` and `setattr` end: a node whose path is an error is not logged. -/
def logFile (g : GitEngine) (fs : Fs) (now : Nat) (node : VfsNode) (payload : Str → WalPayload) :
    Option (Handled Fattr) :=
  match fs.vfs.getPath node.id with
  | none => none
  | some (.error _) => some ⟨.ok (fs.attrOf g node), fs, none⟩
  | some (.ok path) =>
    let fs := fs.recordMutation now path
    some ⟨.ok (fs.attrOf g node), fs, some (payload path)⟩

def write (g : GitEngine) (fs : Fs) (now id offset : Nat) (data : Bytes) (fault : Option IoFault) :
    Option (Handled Fattr) :=
  match fs.applyWrite g id offset data fault with
  | (.error e, fs) => some ⟨.error e, fs, none⟩
  | (.ok node, fs) => fs.logFile g now node fun path => .write path offset data

/-- `size` is the size of the request, if it sets one. -/
def setattr (g : GitEngine) (fs : Fs) (now id : Nat) (size : Option Nat) (fault : Option IoFault) :
    Option (Handled Fattr) :=
  match size with
  | none =>
    match fs.liveNode id with
    | .error e => some ⟨.error e, fs, none⟩
    | .ok node => some ⟨.ok (fs.attrOf g node), fs, none⟩
  | some newSize =>
    match fs.applySetSize g id newSize fault with
    | (.error e, fs) => some ⟨.error e, fs, none⟩
    | (.ok node, fs) => fs.logFile g now node fun path => .truncate path newSize

/-! ## Changing a directory -/

/-- The path of a name in a directory. A directory without a path counts as the root. -/
def childPath (fs : Fs) (dirid : Nat) (name : Str) : Option Str :=
  (fs.vfs.getPath dirid).map fun
    | .ok [] => name
    | .ok parentPath => parentPath ++ '/' :: name
    | .error _ => name

/-- How the handlers of one directory end. -/
def logChild {α : Type} (fs : Fs) (now dirid : Nat) (name : Str) (payload : Str → WalPayload)
    (answer : Fs → α) : Option (Handled α) :=
  (fs.childPath dirid name).map fun path =>
    let fs := fs.recordMutation now path
    ⟨.ok (answer fs), fs, some (payload path)⟩

/-- The part that `create` and `create_exclusive` share. -/
def createNode {α : Type} (g : GitEngine) (fs : Fs) (now dirid : Nat) (filename : Bytes)
    (fault : Option IoFault) (answer : VfsNode → Fs → α) : Option (Handled α) :=
  let name := fromUtf8Lossy filename
  match fs.vfs.createFile g dirid name .regularFile with
  | (.error _, vfs) => some ⟨.error .io, fs.setVfs vfs, none⟩
  | (.ok node, vfs) =>
    match fs.staging.createFile node.id fault with
    | (.error _, staging) => some ⟨.error .io, { fs with vfs, staging }, none⟩
    | (.ok (), staging) =>
      logChild { fs with vfs, staging } now dirid name
        (fun path => .createFile ⟨path, InodeType.regularFile.toI32, 0o100644⟩) (answer node)

def create (g : GitEngine) (fs : Fs) (now dirid : Nat) (filename : Bytes) (fault : Option IoFault) :
    Option (Handled (Nat × Fattr)) :=
  fs.createNode g now dirid filename fault fun node fs => (node.id, fs.attrOf g node)

def createExclusive (g : GitEngine) (fs : Fs) (now dirid : Nat) (filename : Bytes)
    (fault : Option IoFault) : Option (Handled Nat) :=
  fs.createNode g now dirid filename fault fun node _ => node.id

def mkdir (g : GitEngine) (fs : Fs) (now dirid : Nat) (dirname : Bytes) :
    Option (Handled (Nat × Fattr)) :=
  let name := fromUtf8Lossy dirname
  match fs.vfs.mkdir g dirid name with
  | (.error _, vfs) => some ⟨.error .io, fs.setVfs vfs, none⟩
  | (.ok node, vfs) =>
    (fs.setVfs vfs).logChild now dirid name .mkdir fun fs => (node.id, fs.attrOf g node)

def remove (g : GitEngine) (fs : Fs) (now dirid : Nat) (filename : Bytes) : Option (Handled Unit) :=
  let name := fromUtf8Lossy filename
  match fs.vfs.remove g dirid name with
  | (.error _, vfs) => some ⟨.error .noent, fs.setVfs vfs, none⟩
  | (.ok node, vfs) =>
    logChild { fs with vfs, staging := fs.staging.markDeleted node.id } now dirid name .remove fun _ => ()

/-- What `rename` does once it has its two paths. -/
def applyRename (g : GitEngine) (fs : Fs) (fromDirid : Nat) (fromName : Str) (toDirid : Nat)
    (toName : Str) : Except NfsStat Unit × Fs :=
  match fs.vfs.rename g fromDirid fromName toDirid toName with
  | (.error _, vfs) => (.error .io, fs.setVfs vfs)
  | (.ok (), vfs) => (.ok (), fs.setVfs vfs)

def rename (g : GitEngine) (fs : Fs) (now fromDirid : Nat) (fromFilename : Bytes) (toDirid : Nat)
    (toFilename : Bytes) : Option (Handled Unit) :=
  let fromName := fromUtf8Lossy fromFilename
  let toName := fromUtf8Lossy toFilename
  match fs.childPath fromDirid fromName, fs.childPath toDirid toName with
  | some fromPath, some toPath =>
    match fs.applyRename g fromDirid fromName toDirid toName with
    | (.error e, fs) => some ⟨.error e, fs, none⟩
    | (.ok (), fs) =>
      some ⟨.ok (), (fs.recordMutation now fromPath).recordMutation now toPath,
        some (.rename fromPath toPath)⟩
  | _, _ => none

end Fs

end GitNfs
