import GitNfs.Git.Tree
import Mathlib.Logic.Function.Basic

/-! # The Git engine

The tables that browsing reads. Filling a cache changes none of its answers, so the engine is a value
here, and `apply_recovered_objects` is what makes a new one.
-/

namespace GitNfs

structure GitEngine where
  trees : Str → Option GitTree
  rootTreeOid : Option Str
  commitOid : Option Str
  /-- What `get_blob` answers, from a cache or from the source. -/
  blobs : Str → Option Bytes
  /-- The length of a blob that the memory cache or the disk cache holds. -/
  cachedLen : Str → Option Nat
  /-- The length the file system reports for the directory of the disk cache, once it is there. -/
  blobsDirLen : Option Nat
  /-- Whether the objects come from a GCS repository. -/
  gcsStorage : Bool

namespace GitEngine

def getTree (g : GitEngine) (oid : Str) : Option GitTree := g.trees oid

def getBlob (g : GitEngine) (oid : Str) : Except Error Bytes :=
  match g.blobs oid with
  | some b => .ok b
  | none => .error .io

/-- The memory cache, then `get_blob_size` of the disk cache. The path of an empty id is the directory. -/
def blobSize (g : GitEngine) (oid : Str) : Option Nat :=
  if oid = [] then g.blobsDirLen else g.cachedLen oid

def applyObject (dirLen : Option Nat) (g : GitEngine) (o : GitObjectToPack) : GitEngine :=
  match o.objType with
  | .tree =>
    match GitTree.parse o.data with
    | .ok t => { g with trees := Function.update g.trees o.oid (some t) }
    | .error _ => g
  | .blob =>
    { g with blobs := Function.update g.blobs o.oid (some o.data)
             cachedLen := Function.update g.cachedLen o.oid (some o.data.length)
             blobsDirLen := dirLen }
  | _ => g

/-- `dirLen` is the length of the directory of the disk cache after its blobs were put there. -/
def applyRecoveredObjects (g : GitEngine) (dirLen : Option Nat) (commitOid rootTreeOid : Str)
    (objects : List GitObjectToPack) : GitEngine :=
  objects.foldl (applyObject dirLen)
    { g with commitOid := some commitOid, rootTreeOid := some rootTreeOid }

end GitEngine

end GitNfs
