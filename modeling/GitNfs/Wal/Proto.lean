import GitNfs.Git.Object

/-! # WAL entries -/

namespace GitNfs

inductive InodeType where
  | regularFile
  | directory
  | symlink
  | executableFile
  deriving DecidableEq, Repr

namespace InodeType

def toI32 : InodeType → Int
  | regularFile => 0
  | directory => 1
  | symlink => 2
  | executableFile => 3

/-- How a message field is read: a number that names no type is the default. -/
def ofI32 (n : Int) : InodeType :=
  if n = 1 then directory else if n = 2 then symlink else if n = 3 then executableFile else regularFile

theorem ofI32_toI32 (t : InodeType) : ofI32 t.toI32 = t := by cases t <;> rfl

end InodeType

structure WalHeader where
  repoUrl : Str
  baseCommitOid : Str
  author : Str
  commitMessage : Str
  startedAtUnixSecs : Nat
  walSeq : Nat
  deriving DecidableEq, Repr

structure CreateFileMutation where
  path : Str
  inodeType : Int
  mode : Nat
  deriving DecidableEq, Repr

inductive WalPayload where
  | header (h : WalHeader)
  | createFile (create : CreateFileMutation)
  | mkdir (path : Str)
  | write (path : Str) (offset : Nat) (data : Bytes)
  | truncate (path : Str) (newSize : Nat)
  | remove (path : Str)
  | rename (fromPath toPath : Str)
  deriving DecidableEq, Repr

def WalPayload.isHeader : WalPayload → Bool
  | .header _ => true
  | _ => false

structure WalEntry where
  seq : Nat
  timestampUnixNanos : Nat
  payload : Option WalPayload
  deriving DecidableEq, Repr

end GitNfs
