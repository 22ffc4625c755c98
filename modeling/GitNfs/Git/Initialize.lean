import GitNfs.Lib.Waves
import GitNfs.Restart
import Mathlib.Data.Set.Finite.List

/-! # Loading the trees of a repository in a bucket

An engine that starts reads the commit of its branch and then the trees below it, level by level. `read` is
what the reads of this start return: an object, or nothing when a read fails or its task does.
-/

namespace GitNfs

open Waves (Frontier)

/-- Why `GitEngine::initialize` returns an error. -/
inductive InitError where
  | head (e : Error)
  | readCommit (commitOid : Str)
  | noRootTree (commitOid : Str)
  deriving DecidableEq, Repr

/-- The trees so far and the level that they lead to. -/
structure TreeLoader where
  frontier : Frontier Str
  trees : Str → Option GitTree
  loadedTrees : Nat

namespace TreeLoader

section Load

variable (read : Str → Option Bytes)

/-- What the task of one tree comes to. Its errors are not looked at. -/
def readTree (oid : Str) : Option GitTree := (read oid).bind fun data => (GitTree.parse data).toOption

def visitEntry (f : Frontier Str) (entry : GitTreeEntry) : Frontier Str :=
  if entry.mode.isDir then f.visit entry.oid else f

def loadTree (l : TreeLoader) (oid : Str) : TreeLoader :=
  match readTree read oid with
  | none => l
  | some parsed =>
    ⟨parsed.entries.foldl visitEntry l.frontier, Function.update l.trees oid (some parsed), l.loadedTrees + 1⟩

def chunks (n : Nat) : Nat → List Str → List (List Str)
  | 0, _ => []
  | _, [] => []
  | fuel + 1, xs => xs.take n :: chunks n fuel (xs.drop n)

/-- The trees of one level, 64 at a time. -/
def loadLevel (l : TreeLoader) (level : List Str) : TreeLoader :=
  (chunks 64 level.length level).foldl (fun l chunk => chunk.foldl (loadTree read) l) l

def loadWaves : Nat → List Str → TreeLoader → Option TreeLoader
  | _, [], l => some l
  | 0, _ :: _, _ => none
  | n + 1, oid :: level, l =>
    let l := loadLevel read { l with frontier := ⟨l.frontier.visited, []⟩ } (oid :: level)
    loadWaves n l.frontier.next l

end Load

end TreeLoader

namespace GitEngine

/-- `GitEngine::initialize` on a bucket, in `fuel` waves at most. -/
def initializeGcs (b : Bucket) (branch : Option Str) (read : Str → Option Bytes) (fuel : Nat) (g : GitEngine) :
    Option (Except InitError Str × GitEngine) :=
  match b.resolveHead branch with
  | .error e => some (.error (.head e), g)
  | .ok (commitOid, _) =>
    let g := { g with commitOid := some commitOid }
    match read commitOid with
    | none => some (.error (.readCommit commitOid), g)
    | some data =>
      match treeLine (fromUtf8Lossy data) with
      | none => some (.error (.noRootTree commitOid), g)
      | some rootOid =>
        match TreeLoader.loadWaves read fuel [rootOid] ⟨⟨[rootOid], []⟩, g.trees, 0⟩ with
        | none => none
        | some l => some (.ok rootOid, { g with trees := l.trees, rootTreeOid := some rootOid })

end GitEngine

/-! ## The waves -/

namespace TreeLoader

variable {read : Str → Option Bytes}

/-- The directories that a tree leads to, if it is read. -/
def subtrees (read : Str → Option Bytes) (oid : Str) : List Str :=
  match readTree read oid with
  | none => []
  | some parsed => (parsed.entries.filter fun e => e.mode.isDir).map GitTreeEntry.oid

theorem foldl_visitEntry (entries : List GitTreeEntry) (f : Frontier Str) :
    entries.foldl visitEntry f = f.visitAll ((entries.filter fun e => e.mode.isDir).map GitTreeEntry.oid) := by
  induction entries generalizing f with
  | nil => rfl
  | cons e entries ih =>
    rw [List.foldl_cons, ih]
    unfold visitEntry
    cases hdir : e.mode.isDir with
    | true => simp [hdir, Frontier.visitAll_cons]
    | false => simp [hdir]

theorem loadTree_frontier (l : TreeLoader) (oid : Str) :
    (loadTree read l oid).frontier = l.frontier.visitAll (subtrees read oid) := by
  unfold loadTree subtrees
  cases readTree read oid with
  | none => rfl
  | some parsed => exact foldl_visitEntry parsed.entries l.frontier

/-- A tree that is read is in the table, and nothing else changes there. -/
theorem loadTree_trees (l : TreeLoader) (oid oid' : Str) :
    (loadTree read l oid).trees oid' = if oid' = oid then (readTree read oid).or (l.trees oid) else l.trees oid' := by
  unfold loadTree
  cases readTree read oid with
  | none =>
    by_cases h : oid' = oid
    · rw [if_pos h, h]
      rfl
    · rw [if_neg h]
  | some parsed => simp [Function.update_apply]

theorem chunks_flatten {n : Nat} (hn : 0 < n) (fuel : Nat) (xs : List Str) (hfuel : xs.length ≤ fuel) :
    (chunks n fuel xs).flatten = xs := by
  induction fuel generalizing xs with
  | zero =>
    rw [List.length_eq_zero_iff.mp (Nat.le_zero.mp hfuel)]
    rfl
  | succ fuel ih =>
    cases xs with
    | nil => rfl
    | cons x xs =>
      rw [chunks, List.flatten_cons, ih _ (by rw [List.length_drop, List.length_cons] at *; omega),
        List.take_append_drop]
      simp

theorem loadLevel_eq (l : TreeLoader) (level : List Str) : loadLevel read l level = level.foldl (loadTree read) l := by
  unfold loadLevel
  rw [← List.foldl_flatten, chunks_flatten (by decide) _ _ le_rfl]

theorem loadLevel_frontier (read : Str → Option Bytes) (l : TreeLoader) (level : List Str) :
    (loadLevel read l level).frontier = Waves.wave (subtrees read) level l.frontier := by
  rw [loadLevel_eq]
  induction level generalizing l with
  | nil => rfl
  | cons oid level ih =>
    rw [List.foldl_cons, ih, loadTree_frontier]
    rfl

/-- What is in the table was read, and what was seen and is not in the level that comes was tried. -/
structure LevelLoaded (read : Str → Option Bytes) (level : List Str) (l : TreeLoader) : Prop where
  sound : ∀ oid tree, l.trees oid = some tree → readTree read oid = some tree
  tried : ∀ oid ∈ l.frontier.visited, oid ∈ level ∨ l.trees oid = readTree read oid

theorem loadLevel_trees (l : TreeLoader) (level : List Str)
    (hsound : ∀ oid tree, l.trees oid = some tree → readTree read oid = some tree) (oid : Str) :
    (loadLevel read l level).trees oid = if oid ∈ level then readTree read oid else l.trees oid := by
  rw [loadLevel_eq]
  induction level generalizing l with
  | nil => simp
  | cons x level ih =>
    have htable : ∀ oid, (loadTree read l x).trees oid = if oid = x then readTree read x else l.trees oid := by
      intro oid
      rw [loadTree_trees]
      split
      · cases hread : readTree read x with
        | some tree => rfl
        | none =>
          cases htree : l.trees x with
          | none => rfl
          | some tree => exact absurd (hsound x tree htree) (by simp [hread])
      · rfl
    have hsound' : ∀ oid tree, (loadTree read l x).trees oid = some tree → readTree read oid = some tree := by
      intro oid tree htree
      rw [htable] at htree
      split at htree
      · rename_i h
        rw [h]
        exact htree
      · exact hsound oid tree htree
    rw [List.foldl_cons, ih _ hsound', htable]
    by_cases hx : oid = x
    · subst hx
      simp
    · simp [hx]

theorem LevelLoaded.loadLevel {level : List Str} {l : TreeLoader} (h : LevelLoaded read level l) :
    LevelLoaded read (loadLevel read { l with frontier := ⟨l.frontier.visited, []⟩ } level).frontier.next
      (loadLevel read { l with frontier := ⟨l.frontier.visited, []⟩ } level) := by
  have htable := loadLevel_trees { l with frontier := ⟨l.frontier.visited, []⟩ } level h.sound
  constructor
  · intro oid tree htree
    rw [htable] at htree
    split at htree
    · exact htree
    · exact h.sound oid tree htree
  · intro oid hoid
    rw [loadLevel_frontier] at hoid ⊢
    rcases (Waves.wave_grows level _).new oid hoid with hoid | hoid
    · refine .inr ?_
      rw [htable]
      split
      · rfl
      · exact (h.tried oid hoid).resolve_left ‹_›
    · exact .inl hoid

/-- The waves go through the graph of the trees that are read, and in the end all that is seen was tried. -/
theorem loadWaves_spec {n : Nat} {level : List Str} {l l' : TreeLoader} (hl : LevelLoaded read level l)
    (h : loadWaves read n level l = some l') :
    Waves.waves (subtrees read) n level l.frontier.visited = some l'.frontier.visited ∧
      (∀ oid tree, l'.trees oid = some tree → readTree read oid = some tree) ∧
      ∀ oid ∈ l'.frontier.visited, l'.trees oid = readTree read oid := by
  induction n generalizing level l with
  | zero =>
    cases level with
    | cons oid level => cases h
    | nil =>
      obtain rfl := Option.some.inj h
      exact ⟨rfl, hl.sound, fun oid hoid => (hl.tried oid hoid).resolve_left List.not_mem_nil⟩
  | succ n ih =>
    cases level with
    | nil =>
      obtain rfl := Option.some.inj h
      exact ⟨rfl, hl.sound, fun oid hoid => (hl.tried oid hoid).resolve_left List.not_mem_nil⟩
    | cons x level =>
      have hfrontier := loadLevel_frontier read { l with frontier := ⟨l.frontier.visited, []⟩ } (x :: level)
      have hnext := hl.loadLevel
      rw [loadWaves] at h
      rw [Waves.waves, ← hfrontier]
      exact ih hnext h

theorem mem_subtrees {oid y : Str} :
    y ∈ subtrees read oid ↔ ∃ tree, readTree read oid = some tree ∧ ∃ e ∈ tree.entries, e.mode.isDir ∧ e.oid = y := by
  unfold subtrees
  cases readTree read oid with
  | none => simp
  | some tree => simp [and_assoc]

/-- A tree names its subtrees with twenty bytes, so there are finitely many. -/
theorem subtrees_finite (read : Str → Option Bytes) : ∃ u : Finset Str, ∀ x y, y ∈ subtrees read x → y ∈ u := by
  have hbytes : Finite UInt8 := Finite.of_injective UInt8.toFin fun _ _ h => UInt8.toFin_inj.mp h
  have hshas : {sha : Bytes | sha.length = 20}.Finite := List.finite_length_eq UInt8 20
  refine ⟨(hshas.image hexEncode).toFinset, fun x y hy => ?_⟩
  obtain ⟨tree, htree, e, he, -, rfl⟩ := mem_subtrees.mp hy
  unfold readTree at htree
  obtain ⟨data, -, hparse⟩ := Option.bind_eq_some_iff.mp htree
  have hparsed : GitTree.parse data = .ok tree := by
    cases h : GitTree.parse data with
    | error e => simp [h, Except.toOption] at hparse
    | ok t => simpa [h, Except.toOption] using hparse
  obtain ⟨sha, hlength, hoid⟩ := (parse_mem data tree hparsed e he).2
  rw [Set.Finite.mem_toFinset, hoid]
  exact ⟨sha, hlength, rfl⟩

theorem loadWaves_isSome {n : Nat} {level : List Str} {l : TreeLoader}
    (h : (Waves.waves (subtrees read) n level l.frontier.visited).isSome) : (loadWaves read n level l).isSome := by
  induction n generalizing level l with
  | zero =>
    cases level with
    | nil => rfl
    | cons oid level => cases h
  | succ n ih =>
    cases level with
    | nil => rfl
    | cons oid level =>
      rw [loadWaves]
      apply ih
      rw [loadLevel_frontier]
      exact h

end TreeLoader

/-! ## The whole hierarchy -/

/-- The trees of a repository that a root leads to, through entries that are directories. -/
inductive InHierarchy (content : Str → Option Bytes) (rootOid : Str) : Str → Prop where
  | root : InHierarchy content rootOid rootOid
  | entry {oid : Str} {tree : GitTree} {e : GitTreeEntry} : InHierarchy content rootOid oid →
      TreeLoader.readTree content oid = some tree → e ∈ tree.entries → e.mode.isDir = true →
      InHierarchy content rootOid e.oid

/-- Every tree of the hierarchy is in the table with the entries that the repository has for it. -/
def GitEngine.HasHierarchy (g : GitEngine) (content : Str → Option Bytes) (rootOid : Str) : Prop :=
  ∀ oid, InHierarchy content rootOid oid →
    ∃ data tree, content oid = some data ∧ GitTree.parse data = .ok tree ∧ g.getTree oid = some tree

/-- Every tree of the hierarchy was read and parsed. -/
def AllRead (read content : Str → Option Bytes) (rootOid : Str) : Prop :=
  ∀ oid, InHierarchy content rootOid oid → ∃ data tree, read oid = some data ∧ GitTree.parse data = .ok tree

namespace GitEngine

open TreeLoader (readTree subtrees loadWaves LevelLoaded)

theorem readTree_eq_some {read : Str → Option Bytes} {oid : Str} {tree : GitTree} :
    readTree read oid = some tree ↔ ∃ data, read oid = some data ∧ GitTree.parse data = .ok tree := by
  unfold readTree
  rw [Option.bind_eq_some_iff]
  refine exists_congr fun data => and_congr_right fun _ => ?_
  cases GitTree.parse data <;> simp [Except.toOption]

/-- An initialization that returns a root loaded what the waves came to. -/
theorem initializeGcs_ok {b : Bucket} {branch : Option Str} {read : Str → Option Bytes} {fuel : Nat}
    {g g' : GitEngine} {rootOid : Str} (h : initializeGcs b branch read fuel g = some (.ok rootOid, g')) :
    ∃ l, loadWaves read fuel [rootOid] ⟨⟨[rootOid], []⟩, g.trees, 0⟩ = some l ∧ g'.trees = l.trees := by
  unfold initializeGcs at h
  dsimp only at h
  split at h
  · simp at h
  split at h
  · simp at h
  split at h
  · simp at h
  split at h
  · simp at h
  · rename_i l hl
    simp only [Option.some.injEq, Prod.mk.injEq, Except.ok.injEq] at h
    obtain ⟨rfl, rfl⟩ := h
    exact ⟨l, hl, rfl⟩

theorem initializeGcs_isSome (b : Bucket) (branch : Option Str) (read : Str → Option Bytes) :
    ∃ n, ∀ fuel, n ≤ fuel → ∀ g, (initializeGcs b branch read fuel g).isSome := by
  obtain ⟨u, hu⟩ := TreeLoader.subtrees_finite read
  refine ⟨u.card + 1, fun fuel hfuel g => ?_⟩
  unfold initializeGcs
  dsimp only
  split
  · rfl
  split
  · rfl
  split
  · rfl
  rename_i rootOid _
  have hwaves : (Waves.waves (subtrees read) fuel [rootOid] [rootOid]).isSome := by
    refine Waves.waves_isSome (insert rootOid u) (fun x y hy => Finset.mem_insert_of_mem (hu x y hy))
      (List.nodup_singleton _) (by simp) ?_
    have hcard := Finset.card_insert_le rootOid u
    rw [List.length_singleton]
    omega
  obtain ⟨l, hl⟩ := Option.isSome_iff_exists.mp
    (TreeLoader.loadWaves_isSome (l := ⟨⟨[rootOid], []⟩, g.trees, 0⟩) hwaves)
  rw [hl]
  rfl

/-- What is in the table of a new engine after its initialization: the trees that were read, of those that the
ones that were read lead to. -/
theorem initializeGcs_trees {b : Bucket} {branch : Option Str} {read : Str → Option Bytes} {fuel : Nat}
    {g g' : GitEngine} {rootOid : Str} (hnew : ∀ oid, g.trees oid = none)
    (h : initializeGcs b branch read fuel g = some (.ok rootOid, g')) :
    (∀ oid tree, g'.getTree oid = some tree → readTree read oid = some tree) ∧
      ∀ oid, Relation.ReflTransGen (fun x y => y ∈ subtrees read x) rootOid oid → g'.getTree oid = readTree read oid := by
  obtain ⟨l, hl, htrees⟩ := initializeGcs_ok h
  have hstart : LevelLoaded read [rootOid] ⟨⟨[rootOid], []⟩, g.trees, 0⟩ := by
    refine ⟨fun oid tree htree => ?_, fun oid hoid => .inl hoid⟩
    simp [hnew] at htree
  obtain ⟨hwaves, hsound, htried⟩ := TreeLoader.loadWaves_spec hstart hl
  unfold getTree
  rw [htrees]
  refine ⟨hsound, fun oid hoid => htried oid ?_⟩
  refine (Waves.mem_waves hwaves (fun _ hx => hx) (fun _ hx => .inl hx) oid).mpr ?_
  exact ⟨rootOid, List.mem_singleton_self _, hoid⟩

def freshEngine : GitEngine := ⟨fun _ => none, none, none, fun _ => none, fun _ => none, none, true⟩

def loadedCommit : Str := List.replicate 40 'c'

def loadedTop : Str := hexEncode (List.replicate 20 1)

def loadedDir : Str := hexEncode (List.replicate 20 2)

/-- The head of the repository is a commit, not a branch. -/
def detachedBucket : Bucket := (∅ : Bucket).insert "HEAD".toList (asBytes loadedCommit)

def loadedContent (oid : Str) : Option Bytes :=
  if oid = loadedCommit then some (asBytes ("tree ".toList ++ loadedTop ++ ['\n']))
  else if oid = loadedTop then some (rawEntry .directory ['d'] (List.replicate 20 2))
  else if oid = loadedDir then some (rawEntry .regularFile ['f'] (List.replicate 20 3))
  else none

/-- The read of the directory fails. -/
def dirUnreadable (oid : Str) : Option Bytes := if oid = loadedDir then none else loadedContent oid

theorem loaded_hierarchy {oid : Str} (h : InHierarchy loadedContent loadedTop oid) :
    oid = loadedTop ∨ oid = loadedDir := by
  have htop : readTree loadedContent loadedTop = some ⟨[⟨.directory, ['d'], loadedDir⟩]⟩ := by decide +kernel
  have hdir : readTree loadedContent loadedDir =
      some ⟨[⟨.regularFile, ['f'], hexEncode (List.replicate 20 3)⟩]⟩ := by decide +kernel
  induction h with
  | root => exact .inl rfl
  | entry _ htree he hisDir ih =>
    rcases ih with rfl | rfl
    · obtain rfl := Option.some.inj (htop.symm.trans htree)
      rw [List.mem_singleton.mp he]
      exact .inr rfl
    · obtain rfl := Option.some.inj (hdir.symm.trans htree)
      rw [List.mem_singleton.mp he] at hisDir
      cases hisDir

end GitEngine

end GitNfs
