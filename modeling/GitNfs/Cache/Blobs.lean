import GitNfs.Git.Builder
import GitNfs.Git.PackObjects
import GitNfs.Lib.Lru
import GitNfs.Lib.Run
import GitNfs.Zlib

/-! # The caches of the blobs

The memory cache and the disk cache of an engine, and the calls that fill them. A call does one cache
operation at a time, so that other calls may do anything in between.
-/

namespace GitNfs

/-- What is stored under an id is the blob of that id. -/
def IsBlob (oid : Str) (data : Bytes) : Prop := computeGitSha1 .blob data = oid

abbrev MemoryCache := LruCache Str Bytes

def MemoryCache.new (capacity : Nat) : MemoryCache := .empty (max capacity 1)

/-! ## The disk cache -/

/-- The files under the directory of the cache, by the pieces of their paths. -/
structure DiskCache where
  files : AList fun _ : List Str => Bytes

/-- A write that fails: nothing is there, or the first bytes are. It is no different if the process ends
in the middle. -/
inductive PutFault where
  | refused
  | torn (n : Nat)
  deriving DecidableEq, Repr

namespace DiskCache

def empty : DiskCache := ⟨∅⟩

/-- An id is text of hexadecimal digits. -/
def blobPath (oid : Str) : List Str :=
  if 4 ≤ oid.length then ["blobs".toList, oid.take 2, (oid.drop 2).take 2, oid.drop 4]
  else ["blobs".toList, oid]

def hasBlob (c : DiskCache) (oid : Str) : Bool := (c.files.lookup (blobPath oid)).isSome

def getBlob (c : DiskCache) (oid : Str) : Option Bytes := c.files.lookup (blobPath oid)

def putBlob (c : DiskCache) (oid : Str) (data : Bytes) : Option PutFault → DiskCache
  | none => ⟨c.files.insert (blobPath oid) data⟩
  | some .refused => c
  | some (.torn n) => ⟨c.files.insert (blobPath oid) (data.take n)⟩

theorem blobPath_injective {oid oid' : Str} (h : blobPath oid = blobPath oid') : oid = oid' := by
  have hpieces : ∀ s : Str, s = s.take 2 ++ ((s.drop 2).take 2 ++ s.drop 4) := by
    intro s
    rw [show s.drop 4 = (s.drop 2).drop 2 by rw [List.drop_drop], List.take_append_drop, List.take_append_drop]
  unfold blobPath at h
  split_ifs at h with hlong hlong'
  · simp only [List.cons.injEq, and_true, true_and] at h
    obtain ⟨hfirst, hsecond, hrest⟩ := h
    rw [hpieces oid, hpieces oid', hfirst, hsecond, hrest]
  · simp at h
  · simp at h
  · simpa using h

theorem getBlob_insert (c : DiskCache) (oid oid' : Str) (data : Bytes) :
    getBlob ⟨c.files.insert (blobPath oid) data⟩ oid' = if oid' = oid then some data else c.getBlob oid' := by
  unfold getBlob
  split_ifs with h
  · rw [h, AList.lookup_insert]
  · exact AList.lookup_insert_ne fun hpath => h (blobPath_injective hpath)

end DiskCache

/-! ## The calls -/

namespace BlobCalls

/-- What follows when the objects that were fetched are in the caches. -/
inductive Then where
  | answer (oid : Str) (matched : Option Bytes)
  | prefetch (missing : List Str) (fetched : Nat)
  | recovered (objects : List GitObjectToPack)

inductive Outcome where
  | blob (oid : Str) (res : Except Error Bytes)
  | prefetched (res : Except Error Nat)
  | recovered

/-- How far a call is. The first ones are those of `get_blob_arc`, of which a waiter does some again. -/
inductive Phase where
  | memory (oid : Str) (again : Bool)
  | disk (oid : Str) (again : Bool)
  | promote (oid : Str) (data : Bytes)
  | join (oid : Str)
  | wait (oid : Str)
  | fetch (oid : Str)
  | store (left : List (Str × Bytes)) (next : Then)
  | storeDisk (oid : Str) (data : Bytes) (left : List (Str × Bytes)) (next : Then)
  | lookup (oid : Str)
  | leave (oid : Str) (res : Except Error Bytes)
  | scan (left missing : List Str)
  | scanDisk (oid : Str) (left missing : List Str)
  | prefetch (missing : List Str) (fetched : Nat)
  | ended (outcome : Outcome)

/-- What a source answers: a pack and the objects in it, in the order of the loop over them; one object; or
the objects of a chunk, as far as they could be read. -/
inductive Response where
  | failed
  | pack (bytes : Bytes) (objects : List (Str × GitRawObject))
  | raw (data : Bytes)
  | raws (found : List (Option Bytes))

inductive Action where
  | getBlob (i : Nat) (oid : Str)
  | prefetch (i : Nat) (treeOid : Str)
  | applyRecovered (i : Nat) (objects : List GitObjectToPack)
  | advance (i : Nat) (fault : Option PutFault)
  | respond (i : Nat) (r : Response)
  /-- The process ends and another one starts, with the trees that it loads. -/
  | restart (trees : Str → Option GitTree)

structure Engine where
  gcs : Bool
  trees : Str → Option GitTree
  memory : MemoryCache
  disk : DiskCache
  inFlight : List Str
  calls : Nat → Option Phase

namespace Engine

def initial (gcs : Bool) (trees : Str → Option GitTree) : Engine :=
  ⟨gcs, trees, .new (if gcs then 4096 else 2048), .empty, [], fun _ => none⟩

def goto (e : Engine) (i : Nat) (phase : Phase) : Engine :=
  { e with calls := Function.update e.calls i (some phase) }

/-- The blobs and the trees of a commit that was built. -/
def blobsOf (objects : List GitObjectToPack) : List (Str × Bytes) :=
  (objects.filter fun obj => obj.objType = .blob).map fun obj => (obj.oid, obj.data)

def addTrees (trees : Str → Option GitTree) (objects : List GitObjectToPack) : Str → Option GitTree :=
  objects.foldl (fun trees obj =>
    match obj.objType, GitTree.parse obj.data with
    | .tree, .ok t => Function.update trees obj.oid (some t)
    | _, _ => trees) trees

/-- The next operation of a call. -/
def advance (e : Engine) (i : Nat) (fault : Option PutFault) : Phase → Option Engine
  | .memory oid again =>
    match e.memory.get oid with
    | (some data, memory) => some ({ e with memory }.goto i (.ended (.blob oid (.ok data))))
    | (none, memory) => some ({ e with memory }.goto i (.disk oid again))
  | .disk oid again =>
    match e.disk.getBlob oid with
    | some data => some (e.goto i (.promote oid data))
    | none => some (e.goto i (if again then .fetch oid else .join oid))
  | .promote oid data =>
    some ({ e with memory := e.memory.put oid data }.goto i (.ended (.blob oid (.ok data))))
  | .join oid =>
    if oid ∈ e.inFlight then some (e.goto i (.wait oid))
    else some ({ e with inFlight := oid :: e.inFlight }.goto i (.fetch oid))
  -- the fetcher that it waited for may be gone by now, and another in its place
  | .wait oid => some (e.goto i (.memory oid true))
  | .fetch _ => none
  | .store ((oid, data) :: left) next =>
    some ({ e with memory := e.memory.put oid data }.goto i (.storeDisk oid data left next))
  -- whether the file could be written is not looked at
  | .storeDisk oid data left next =>
    some ({ e with disk := e.disk.putBlob oid data fault }.goto i (.store left next))
  | .store [] (.answer oid (some data)) => some (e.goto i (.leave oid (.ok data)))
  | .store [] (.answer oid none) => some (e.goto i (.lookup oid))
  | .store [] (.prefetch missing fetched) => some (e.goto i (.prefetch missing fetched))
  | .store [] (.recovered objects) =>
    some ({ e with trees := addTrees e.trees objects }.goto i (.ended .recovered))
  | .lookup oid =>
    match e.memory.get oid with
    | (some data, memory) => some ({ e with memory }.goto i (.leave oid (.ok data)))
    | (none, memory) => some ({ e with memory }.goto i (.leave oid (.error .io)))
  | .leave oid res =>
    some ({ e with inFlight := e.inFlight.filter (· ≠ oid) }.goto i (.ended (.blob oid res)))
  | .scan (oid :: left) missing =>
    match e.memory.get oid with
    | (some _, memory) => some ({ e with memory }.goto i (.scan left missing))
    | (none, memory) => some ({ e with memory }.goto i (.scanDisk oid left missing))
  | .scanDisk oid left missing =>
    some (e.goto i (.scan left (if e.disk.hasBlob oid then missing else missing ++ [oid])))
  | .scan [] missing => some (e.goto i (.prefetch missing 0))
  | .prefetch [] fetched => some (e.goto i (.ended (.prefetched (.ok fetched))))
  | .prefetch (_ :: _) _ => none
  | .ended _ => none

section Source

variable (inflate : Bytes → Option (Bytes × Nat))

/-- The fetched objects under the ids that were recomputed for them. -/
def contents (objects : List (Str × GitRawObject)) : List (Str × Bytes) :=
  objects.map fun o => (o.1, o.2.data)

/-- The objects of a chunk under the ids that were asked for. -/
def found (chunk : List Str) (datas : List (Option Bytes)) : List (Str × Bytes) :=
  (chunk.zip datas).filterMap fun o => o.2.map fun data => (o.1, data)

def respond (e : Engine) (i : Nat) : Response → Phase → Option Engine
  | .failed, .fetch oid => some (e.goto i (.leave oid (.error .io)))
  | .pack bytes objects, .fetch oid =>
    if e.gcs then none
    else
      match unpackPackfile inflate bytes with
      | .error _ => some (e.goto i (.leave oid (.error .io)))
      | .ok _ => some (e.goto i (.store (contents objects) (.answer oid ((contents objects).lookup oid))))
  | .raw data, .fetch oid =>
    if e.gcs then some (e.goto i (.store [(oid, data)] (.answer oid (some data)))) else none
  | .failed, .prefetch (_ :: _) _ => if e.gcs then none else some (e.goto i (.ended (.prefetched (.error .io))))
  | .pack bytes objects, .prefetch (oid :: missing) fetched =>
    if e.gcs then none
    else if bytes = [] then some (e.goto i (.prefetch ((oid :: missing).drop 64) fetched))
    else
      match unpackPackfile inflate bytes with
      | .error _ => some (e.goto i (.ended (.prefetched (.error .io))))
      | .ok _ =>
        some (e.goto i (.store (contents objects)
          (.prefetch ((oid :: missing).drop 64) (fetched + objects.length))))
  | .raws datas, .prefetch (oid :: missing) fetched =>
    let chunk := (oid :: missing).take 64
    if e.gcs ∧ datas.length = chunk.length then
      some (e.goto i (.store (found chunk datas)
        (.prefetch ((oid :: missing).drop 64) (fetched + (found chunk datas).length))))
    else none
  | _, _ => none

def step (e : Engine) : Action → Option Engine
  | .getBlob i oid => if (e.calls i).isSome then none else some (e.goto i (.memory oid false))
  | .prefetch i treeOid =>
    if (e.calls i).isSome then none
    else
      match e.trees treeOid with
      | none => some (e.goto i (.ended (.prefetched (.ok 0))))
      | some tree =>
        some (e.goto i (.scan ((tree.entries.filter fun t => !t.mode.isDir).map GitTreeEntry.oid) []))
  | .applyRecovered i objects =>
    if (e.calls i).isSome then none else some (e.goto i (.store (blobsOf objects) (.recovered objects)))
  | .advance i fault => (e.calls i).bind (e.advance i fault)
  | .respond i r => (e.calls i).bind (e.respond inflate i r)
  | .restart trees => some { initial e.gcs trees with disk := e.disk }

/-- What an answer and a commit can be: the objects are those of the pack, each once, and those that were
built from some tree of nodes. -/
def Legal : Action → Prop
  | .respond _ (.pack bytes objects) =>
    ∀ m, unpackPackfile inflate bytes = .ok m →
      (objects.map Prod.fst).Nodup ∧ ∀ oid obj, (oid, obj) ∈ objects ↔ m oid = some obj
  | .applyRecovered _ objects =>
    ∃ v staging g base author message timestamp rebuilt,
      rebuildGitObjects v staging g base author message timestamp = some (.ok rebuilt) ∧
        rebuilt.objects = objects
  | _ => True

/-- What keeps the caches true: no file is cut short, a pack holds blobs, and a repository in a bucket
answers with the blob that it was asked for. -/
def Faithful (e : Engine) : Action → Prop
  | .advance i (some (.torn n)) =>
    ∀ oid data left next, e.calls i = some (.storeDisk oid data left next) → data.length ≤ n
  | .respond _ (.pack _ objects) => ∀ o ∈ objects, o.2.objType = .blob
  | .respond i (.raw data) => ∀ oid, e.calls i = some (.fetch oid) → IsBlob oid data
  | .respond i (.raws datas) =>
    ∀ missing fetched, e.calls i = some (.prefetch missing fetched) →
      ∀ o ∈ found (missing.take 64) datas, IsBlob o.1 o.2
  | _ => True

end Source

/-! ## What is stored is what its id says -/

def Blobs (entries : List (Str × Bytes)) : Prop := ∀ o ∈ entries, IsBlob o.1 o.2

def TrueThen : Then → Prop
  | .answer oid matched => ∀ data, matched = some data → IsBlob oid data
  | _ => True

/-- What a call holds in its hands. -/
def TruePhase : Phase → Prop
  | .promote oid data => IsBlob oid data
  | .store left next => Blobs left ∧ TrueThen next
  | .storeDisk oid data left next => IsBlob oid data ∧ Blobs left ∧ TrueThen next
  | .leave oid res => ∀ data, res = .ok data → IsBlob oid data
  | .ended (.blob oid res) => ∀ data, res = .ok data → IsBlob oid data
  | _ => True

structure Addressed (e : Engine) : Prop where
  memory : Blobs e.memory.entries
  disk : ∀ oid data, e.disk.getBlob oid = some data → IsBlob oid data
  calls : ∀ i phase, e.calls i = some phase → TruePhase phase

theorem Addressed.goto {e : Engine} (h : e.Addressed) (i : Nat) {phase : Phase} (hphase : TruePhase phase) :
    (e.goto i phase).Addressed := by
  refine ⟨h.memory, h.disk, ?_⟩
  intro j phase' hj
  unfold Engine.goto at hj
  dsimp only at hj
  by_cases hji : j = i
  · subst hji
    rw [Function.update_self, Option.some.injEq] at hj
    exact hj ▸ hphase
  · rw [Function.update_of_ne hji] at hj
    exact h.calls j phase' hj

theorem Addressed.setMemory {e : Engine} (h : e.Addressed) {memory : MemoryCache}
    (hmemory : Blobs memory.entries) : Addressed { e with memory } := ⟨hmemory, h.disk, h.calls⟩

theorem Addressed.put {e : Engine} (h : e.Addressed) {oid : Str} {data : Bytes} (hdata : IsBlob oid data) :
    Addressed { e with memory := e.memory.put oid data } := by
  apply h.setMemory
  intro o ho
  rcases LruCache.mem_put ho with ho | rfl
  · exact h.memory o ho
  · exact hdata

/-- A look into the memory cache, and what it finds. -/
theorem Addressed.get {e : Engine} (h : e.Addressed) {oid : Str} {found : Option Bytes} {memory : MemoryCache}
    (hget : e.memory.get oid = (found, memory)) :
    Addressed { e with memory } ∧ ∀ data, found = some data → IsBlob oid data := by
  obtain ⟨hfound, hsub⟩ := LruCache.get_entries hget
  refine ⟨h.setMemory fun o ho => h.memory o (hsub o ho), ?_⟩
  intro data hdata
  exact h.memory (oid, data) (hfound data hdata)

/-- A file that is written whole, or not at all. -/
theorem Addressed.putBlob {e : Engine} (h : e.Addressed) {oid : Str} {data : Bytes} (hdata : IsBlob oid data)
    {fault : Option PutFault} (hfault : ∀ n, fault = some (.torn n) → data.length ≤ n) :
    Addressed { e with disk := e.disk.putBlob oid data fault } := by
  have hwhole : ∀ oid' data',
      DiskCache.getBlob ⟨e.disk.files.insert (DiskCache.blobPath oid) data⟩ oid' = some data' →
        IsBlob oid' data' := by
    intro oid' data' hget
    rw [DiskCache.getBlob_insert] at hget
    split_ifs at hget with heq
    · rw [heq, ← Option.some.inj hget]
      exact hdata
    · exact h.disk oid' data' hget
  refine ⟨h.memory, ?_, h.calls⟩
  cases fault with
  | none => exact hwhole
  | some fault =>
    cases fault with
    | refused => exact h.disk
    | torn n =>
      unfold DiskCache.putBlob
      dsimp only
      rw [List.take_of_length_le (hfault n rfl)]
      exact hwhole

theorem Addressed.rest {e : Engine} (h : e.Addressed) (trees : Str → Option GitTree) (inFlight : List Str) :
    Addressed { e with trees, inFlight } := ⟨h.memory, h.disk, h.calls⟩

/-- The next operation of a call keeps the caches true. -/
theorem advance_addressed {e e' : Engine} {i : Nat} {fault : Option PutFault} {phase : Phase}
    (h : e.Addressed) (hphase : TruePhase phase)
    (hfault : ∀ n, fault = some (.torn n) → ∀ oid data left next, phase = .storeDisk oid data left next →
      data.length ≤ n)
    (hstep : e.advance i fault phase = some e') : e'.Addressed := by
  cases phase with
  | memory oid again =>
    unfold advance at hstep
    dsimp only at hstep
    split at hstep <;> rename_i hget <;> obtain ⟨hmemory, hfound⟩ := h.get hget <;>
      obtain rfl := Option.some.inj hstep
    · refine hmemory.goto i ?_
      rintro _ ⟨⟩
      exact hfound _ rfl
    · exact hmemory.goto i trivial
  | disk oid again =>
    unfold advance at hstep
    dsimp only at hstep
    split at hstep <;> obtain rfl := Option.some.inj hstep
    · rename_i data hdata
      exact h.goto i (h.disk oid data hdata)
    · apply h.goto i
      cases again <;> trivial
  | promote oid data =>
    obtain rfl := Option.some.inj hstep
    refine (h.put hphase).goto i ?_
    rintro _ ⟨⟩
    exact hphase
  | join oid =>
    unfold advance at hstep
    dsimp only at hstep
    split_ifs at hstep <;> obtain rfl := Option.some.inj hstep
    · exact h.goto i trivial
    · exact (h.rest e.trees _).goto i trivial
  | wait oid =>
    obtain rfl := Option.some.inj hstep
    exact h.goto i trivial
  | fetch oid => simp [advance] at hstep
  | store left next =>
    obtain ⟨hleft, hnext⟩ := hphase
    cases left with
    | cons o left =>
      obtain rfl := Option.some.inj hstep
      have ho : IsBlob o.1 o.2 := hleft o List.mem_cons_self
      exact (h.put ho).goto i ⟨ho, fun o' ho' => hleft o' (List.mem_cons_of_mem o ho'), hnext⟩
    | nil =>
      cases next with
      | answer oid matched =>
        cases matched with
        | none =>
          obtain rfl := Option.some.inj hstep
          exact h.goto i trivial
        | some data =>
          obtain rfl := Option.some.inj hstep
          refine h.goto i ?_
          rintro _ ⟨⟩
          exact hnext data rfl
      | prefetch missing fetched =>
        obtain rfl := Option.some.inj hstep
        exact h.goto i trivial
      | recovered objects =>
        obtain rfl := Option.some.inj hstep
        exact (h.rest _ e.inFlight).goto i trivial
  | storeDisk oid data left next =>
    obtain ⟨hdata, hleft, hnext⟩ := hphase
    obtain rfl := Option.some.inj hstep
    refine (h.putBlob hdata ?_).goto i ⟨hleft, hnext⟩
    intro n hn
    exact hfault n hn oid data left next rfl
  | lookup oid =>
    unfold advance at hstep
    dsimp only at hstep
    split at hstep <;> rename_i hget <;> obtain ⟨hmemory, hfound⟩ := h.get hget <;>
      obtain rfl := Option.some.inj hstep
    · refine hmemory.goto i ?_
      rintro _ ⟨⟩
      exact hfound _ rfl
    · refine hmemory.goto i ?_
      rintro _ ⟨⟩
  | leave oid res =>
    obtain rfl := Option.some.inj hstep
    exact (h.rest e.trees _).goto i hphase
  | scan left missing =>
    cases left with
    | nil =>
      obtain rfl := Option.some.inj hstep
      exact h.goto i trivial
    | cons oid left =>
      unfold advance at hstep
      dsimp only at hstep
      split at hstep <;> rename_i hget <;> obtain ⟨hmemory, -⟩ := h.get hget <;>
        obtain rfl := Option.some.inj hstep
      · exact hmemory.goto i trivial
      · exact hmemory.goto i trivial
  | scanDisk oid left missing =>
    obtain rfl := Option.some.inj hstep
    exact h.goto i trivial
  | prefetch missing fetched =>
    cases missing with
    | nil =>
      obtain rfl := Option.some.inj hstep
      exact h.goto i trivial
    | cons oid missing => simp [advance] at hstep
  | ended outcome => simp [advance] at hstep

section Source

variable {inflate : Bytes → Option (Bytes × Nat)}

/-- The ids of the objects of a pack were computed from what is in it. -/
theorem contents_blobs {bytes : Bytes} {objects : List (Str × GitRawObject)} {m : Str → Option GitRawObject}
    (hm : unpackPackfile inflate bytes = .ok m)
    (hobjects : ∀ oid obj, (oid, obj) ∈ objects ↔ m oid = some obj)
    (hblob : ∀ o ∈ objects, o.2.objType = .blob) : Blobs (contents objects) := by
  intro o ho
  obtain ⟨⟨oid, obj⟩, hmem, rfl⟩ := List.mem_map.mp ho
  obtain ⟨_, -, hnamed, -⟩ := unpackPackfile_sound hm
  have hoid := (hnamed oid obj ((hobjects oid obj).mp hmem)).1
  unfold GitRawObject.oid at hoid
  rw [hblob _ hmem] at hoid
  exact hoid

theorem answer_true {oid : Str} {left : List (Str × Bytes)} (h : Blobs left) :
    TrueThen (.answer oid (left.lookup oid)) := by
  intro data hdata
  obtain ⟨front, behind, rfl, -⟩ := List.lookup_eq_some_iff.mp hdata
  exact h (oid, data) (by simp)

/-- An answer of the source that can be trusted keeps the caches true. -/
theorem respond_addressed {e e' : Engine} {i : Nat} {r : Response} {phase : Phase} (h : e.Addressed)
    (hcall : e.calls i = some phase) (hlegal : Legal inflate (.respond i r))
    (hok : e.Faithful (.respond i r)) (hstep : e.respond inflate i r phase = some e') : e'.Addressed := by
  cases r with
  | failed =>
    cases phase with
    | fetch oid =>
      obtain rfl := Option.some.inj hstep
      refine h.goto i ?_
      rintro _ ⟨⟩
    | prefetch missing fetched =>
      cases missing with
      | nil => simp [respond] at hstep
      | cons oid missing =>
        unfold respond at hstep
        dsimp only at hstep
        split_ifs at hstep
        obtain rfl := Option.some.inj hstep
        exact h.goto i trivial
    | _ => simp [respond] at hstep
  | pack bytes objects =>
    have hblobs : ∀ m, unpackPackfile inflate bytes = .ok m → Blobs (contents objects) := by
      intro m hm
      exact contents_blobs hm (hlegal m hm).2 hok
    cases phase with
    | fetch oid =>
      unfold respond at hstep
      dsimp only at hstep
      split_ifs at hstep
      split at hstep <;> obtain rfl := Option.some.inj hstep
      · refine h.goto i ?_
        rintro _ ⟨⟩
      · rename_i m hm
        exact h.goto i ⟨hblobs m hm, answer_true (hblobs m hm)⟩
    | prefetch missing fetched =>
      cases missing with
      | nil => simp [respond] at hstep
      | cons oid missing =>
        unfold respond at hstep
        dsimp only at hstep
        by_cases hgcs : e.gcs = true
        · simp [hgcs] at hstep
        rw [if_neg hgcs] at hstep
        by_cases hempty : bytes = []
        · rw [if_pos hempty] at hstep
          obtain rfl := Option.some.inj hstep
          exact h.goto i trivial
        rw [if_neg hempty] at hstep
        split at hstep <;> obtain rfl := Option.some.inj hstep
        · exact h.goto i trivial
        · rename_i m hm
          exact h.goto i ⟨hblobs m hm, trivial⟩
    | _ => simp [respond] at hstep
  | raw data =>
    cases phase with
    | fetch oid =>
      unfold respond at hstep
      dsimp only at hstep
      split_ifs at hstep
      obtain rfl := Option.some.inj hstep
      have hdata : IsBlob oid data := hok oid hcall
      refine h.goto i ⟨?_, ?_⟩
      · intro o ho
        rw [List.mem_singleton.mp ho]
        exact hdata
      · rintro _ ⟨⟩
        exact hdata
    | _ => simp [respond] at hstep
  | raws datas =>
    cases phase with
    | prefetch missing fetched =>
      cases missing with
      | nil => simp [respond] at hstep
      | cons oid missing =>
        unfold respond at hstep
        dsimp only at hstep
        split_ifs at hstep
        obtain rfl := Option.some.inj hstep
        exact h.goto i ⟨hok _ _ hcall, trivial⟩
    | _ => simp [respond] at hstep

/-- The blobs of a commit that was rebuilt have the ids of their contents. -/
theorem blobsOf_blobs {objects : List GitObjectToPack}
    (h : ∀ obj ∈ objects, obj.oid = computeGitSha1 obj.objType obj.data) : Blobs (blobsOf objects) := by
  intro o ho
  obtain ⟨obj, hobj, rfl⟩ := List.mem_map.mp ho
  obtain ⟨hmem, htype⟩ := List.mem_filter.mp hobj
  have hoid := h obj hmem
  rw [of_decide_eq_true htype] at hoid
  exact hoid.symm

/-- One step. -/
theorem step_addressed {e e' : Engine} {a : Action} (h : e.Addressed)
    (hok : e.Faithful a ∧ Legal inflate a) (hstep : e.step inflate a = some e') : e'.Addressed := by
  obtain ⟨hfaithful, hlegal⟩ := hok
  cases a with
  | getBlob i oid =>
    unfold step at hstep
    dsimp only at hstep
    split_ifs at hstep
    obtain rfl := Option.some.inj hstep
    exact h.goto i trivial
  | prefetch i treeOid =>
    unfold step at hstep
    dsimp only at hstep
    by_cases hbusy : (e.calls i).isSome = true
    · simp [hbusy] at hstep
    rw [if_neg hbusy] at hstep
    split at hstep <;> obtain rfl := Option.some.inj hstep
    · exact h.goto i trivial
    · exact h.goto i trivial
  | applyRecovered i objects =>
    unfold step at hstep
    dsimp only at hstep
    split_ifs at hstep
    obtain rfl := Option.some.inj hstep
    obtain ⟨v, staging, g, base, author, message, timestamp, rebuilt, hrebuilt, rfl⟩ := hlegal
    exact h.goto i ⟨blobsOf_blobs (rebuildGitObjects_named hrebuilt), trivial⟩
  | advance i fault =>
    obtain ⟨phase, hcall, hstep⟩ := Option.bind_eq_some_iff.mp hstep
    refine advance_addressed h (h.calls i phase hcall) ?_ hstep
    rintro n rfl oid data left next rfl
    exact hfaithful oid data left next hcall
  | respond i r =>
    obtain ⟨phase, hcall, hstep⟩ := Option.bind_eq_some_iff.mp hstep
    exact respond_addressed h hcall hlegal hfaithful hstep
  | restart trees =>
    obtain rfl := Option.some.inj hstep
    refine ⟨?_, h.disk, ?_⟩
    · intro o ho
      simp [initial, MemoryCache.new, LruCache.empty] at ho
    · intro i phase hi
      simp [initial] at hi

theorem initial_addressed (gcs : Bool) (trees : Str → Option GitTree) : (initial gcs trees).Addressed := by
  refine ⟨?_, ?_, ?_⟩
  · intro o ho
    simp [initial, MemoryCache.new, LruCache.empty] at ho
  · intro oid data hget
    simp [initial, DiskCache.empty, DiskCache.getBlob] at hget
  · intro i phase hi
    simp [initial] at hi

end Source

/-- The actions of one `get_blob` that finds nothing in the caches and is answered with one object. -/
def fetchOne (i : Nat) (oid : Str) (r : Response) (fault : Option PutFault) : List Action :=
  [.getBlob i oid, .advance i none, .advance i none, .advance i none, .respond i r, .advance i none,
    .advance i fault, .advance i none, .advance i none]

/-- The id of the blob `hi`. -/
def hiOid : Str := "32f95c0d1244a78b2be1bab8de17906fabb2c4a8".toList

def emptyTreeOid : Str := "4b825dc642cb6eb9a060e54bf8d69288fbee4904".toList

/-- A pack of the tree that names nothing. -/
def treePack : Bytes := packHeader 1 ++ packRecord zlibStored ⟨emptyTreeOid, .tree, []⟩

theorem hiOid_blob : IsBlob hiOid [104, 105] := by
  unfold IsBlob
  decide +kernel

theorem treePack_legal (i : Nat) :
    Legal inflateStored (.respond i (.pack treePack [(emptyTreeOid, ⟨.tree, []⟩)])) := by
  have hoid : computeGitSha1 .tree [] = emptyTreeOid := by decide +kernel
  have hunpack := unpackPackfile_pack zlibStored inflateStored [⟨emptyTreeOid, .tree, []⟩]
    (by show 1 < 2 ^ 32; decide) [] (by simp [ObjectType.Plain])
    (by
      intro obj hobj rest
      rw [List.mem_singleton.mp hobj]
      exact inflateStored_zlibStored _ rest (by decide))
  rw [List.append_nil, List.flatMap_singleton] at hunpack
  intro m hm
  obtain rfl := Except.ok.inj (hunpack.symm.trans hm)
  refine ⟨List.nodup_singleton _, ?_⟩
  intro oid obj
  rw [List.foldl_cons, List.foldl_nil, hoid, List.mem_singleton, Prod.mk.injEq]
  by_cases heq : oid = emptyTreeOid
  · rw [heq, Function.update_self, Option.some.injEq, eq_comm (a := obj)]
    exact and_iff_right rfl
  · rw [Function.update_of_ne heq]
    simp [heq]

end Engine

end BlobCalls

end GitNfs
