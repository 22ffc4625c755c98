import GitNfs.Git.Committed
import GitNfs.Vfs.View

/-! # The files below a tree

The file that a path leads to, below a tree and below a directory of the tables. What the commit of some
tables shows is read off its trees path by path.
-/

namespace GitNfs

open VfsManager

/-- The file that a path leads to below a tree: its mode and its blob. -/
def GitEngine.fileIn (g : GitEngine) : Str → List Str → Option (TreeEntryMode × Str)
  | _, [] => none
  | oid, name :: path =>
    if isDots name then none
    else
      (lastEntry (treeEntries g oid) name).bind fun e =>
        if e.mode.isDir then g.fileIn e.oid path else if path = [] then some (e.mode, e.oid) else none

namespace VfsManager

/-- The file at a place: its mode and its blob. -/
def fileOf (v : VfsManager) (place : Place) : Option (TreeEntryMode × Str) :=
  (v.shown place).bind fun s => if s.isDir then none else some (s.mode, s.oid)

def fileFrom (g : GitEngine) (v : VfsManager) (place : Place) (path : List Str) : Option (TreeEntryMode × Str) :=
  (placeFrom g v place path).bind v.fileOf

def fileAt (g : GitEngine) (v : VfsManager) (path : List Str) : Option (TreeEntryMode × Str) :=
  fileFrom g v (.node rootInode) path

/-- The file at a path as a commit has it: what is not written again is what its tree has. -/
def committedFile (g : GitEngine) (v : VfsManager) (dirty : List Nat) : Nat → List Str → Option (TreeEntryMode × Str)
  | _, [] => none
  | d, name :: path =>
    if isDots name then none
    else
      (v.liveChild d name).bind fun i =>
        (v.nodes i).bind fun c =>
          if c.isDir then
            if dirty.contains i then committedFile g v dirty i path else g.fileIn c.oid path
          else if path = [] then some (c.mode, c.oid) else none

variable {g : GitEngine} {v v' : VfsManager}

theorem mem_of_lastEntry {es : List GitTreeEntry} {name : Str} {e : GitTreeEntry} (h : lastEntry es name = some e) :
    e ∈ es ∧ e.name = name :=
  ⟨List.mem_reverse.mp (List.mem_of_find?_eq_some h), by simpa using List.find?_some h⟩

/-! ## Path by path -/

theorem fileOf_node (i : Nat) :
    v.fileOf (.node i) = (v.nodes i).bind fun n => if n.isDir then none else some (n.mode, n.oid) := by
  simp only [fileOf, shown]
  cases v.nodes i <;> rfl

theorem fileFrom_cons (place : Place) (name : Str) (path : List Str) :
    fileFrom g v place (name :: path) = (childAt g v place name).bind fun b => fileFrom g v b path := by
  unfold fileFrom placeFrom
  rw [Walk.walk, Option.bind_assoc]

theorem fileFrom_entry (e : GitTreeEntry) (path : List Str) :
    fileFrom g v (.entry e) path =
      if e.mode.isDir then g.fileIn e.oid path else if path = [] then some (e.mode, e.oid) else none := by
  induction path generalizing e with
  | nil =>
    rw [GitEngine.fileIn, if_pos rfl]
    rfl
  | cons name path ih =>
    rw [fileFrom_cons, GitEngine.fileIn, if_neg (List.cons_ne_nil _ _)]
    cases hdots : isDots name with
    | true =>
      rw [childAt_dots hdots, Option.bind_none, if_pos rfl]
      split_ifs <;> rfl
    | false =>
      rw [childAt_entry hdots, entryAt, if_neg Bool.false_ne_true]
      by_cases hdir : e.mode.isDir = true
      · rw [if_pos hdir, if_pos hdir]
        cases lastEntry (treeEntries g e.oid) name with
        | none => rfl
        | some e' => exact ih e'
      · rw [if_neg hdir, if_neg hdir, Option.bind_none]

/-- A directory whose children nobody asked for shows its tree. -/
theorem fileFrom_unlisted {d : Nat} {n : VfsNode} (hids : v.dirChildren d = none) (hn : v.nodes d = some n)
    (hdir : n.isDir = true) (path : List Str) : fileFrom g v (.node d) path = g.fileIn n.oid path := by
  cases path with
  | nil =>
    unfold fileFrom fileOf
    simp [placeFrom, Walk.walk, shown, hn, hdir, GitEngine.fileIn]
  | cons name path =>
    rw [fileFrom_cons, GitEngine.fileIn]
    cases hdots : isDots name with
    | true =>
      rw [childAt_dots hdots, if_pos rfl]
      rfl
    | false =>
      rw [childAt_unlisted hdots hids hn, entryAt, if_pos hdir, if_neg Bool.false_ne_true]
      cases lastEntry (treeEntries g n.oid) name with
      | none => rfl
      | some e => exact fileFrom_entry e path

theorem fileFrom_listed {d : Nat} {ids : List Nat} (hids : v.dirChildren d = some ids) (name : Str)
    (path : List Str) : fileFrom g v (.node d) (name :: path) =
      if isDots name then none else (v.liveChild d name).bind fun i => fileFrom g v (.node i) path := by
  rw [fileFrom_cons]
  cases hdots : isDots name with
  | true =>
    rw [childAt_dots hdots, if_pos rfl]
    rfl
  | false =>
    rw [childAt_listed hdots hids, if_neg Bool.false_ne_true]
    cases v.liveChild d name <;> rfl

theorem fileFrom_file (hv : v.WellFormed) {i : Nat} {n : VfsNode} (hn : v.nodes i = some n) (hfile : n.isDir = false)
    (path : List Str) : fileFrom g v (.node i) path = if path = [] then some (n.mode, n.oid) else none := by
  cases path with
  | nil =>
    unfold fileFrom fileOf
    simp [placeFrom, Walk.walk, shown, hn, hfile]
  | cons name path =>
    rw [fileFrom_cons, if_neg (List.cons_ne_nil _ _)]
    have hids : v.dirChildren i = none := by
      cases hids : v.dirChildren i with
      | none => rfl
      | some ids =>
        obtain ⟨-, ⟨m, hm, hdir⟩, -⟩ := hv.listed i ids hids
        rw [hn, Option.some.injEq] at hm
        rw [← hm, hfile] at hdir
        cases hdir
    cases hdots : isDots name with
    | true => rw [childAt_dots hdots, Option.bind_none]
    | false => rw [childAt_unlisted hdots hids hn, entryAt, hfile, if_neg Bool.false_ne_true, Option.bind_none]

theorem fileFrom_dir_nil {d : Nat} {n : VfsNode} (hn : v.nodes d = some n) (hdir : n.isDir = true) :
    fileFrom g v (.node d) [] = none := by
  unfold fileFrom fileOf
  simp [placeFrom, Walk.walk, shown, hn, hdir]

/-- A server that has just started shows its root tree. -/
theorem fileAt_new (rootOid : Str) (path : List Str) : fileAt g (VfsManager.new rootOid) path = g.fileIn rootOid path :=
  fileFrom_unlisted (n := ⟨rootInode, rootInode, ['/'], rootOid, .directory, true, 4096, false⟩) rfl
    (by simp [VfsManager.new]) rfl path

/-- What is seen alike has the same files. -/
theorem SameTree.fileAt (h : SameTree g v v') (hv : v.WellFormed) (path : List Str) :
    fileAt g v' path = fileAt g v path := by
  obtain ⟨n, hn, -⟩ := hv.root
  have hkeeps := h rootInode n hn path
  unfold VfsManager.fileAt fileFrom fileOf
  rw [← Option.bind_assoc, ← Option.bind_assoc]
  generalize (placeFrom g v (.node rootInode) path).bind v.shown = a at hkeeps ⊢
  generalize (placeFrom g v' (.node rootInode) path).bind v'.shown = b at hkeeps ⊢
  cases hkeeps with
  | none => rfl
  | some hs => simp only [Option.bind_some, hs.mode, hs.isDir, hs.oid]

/-! ## A directory that shows its tree -/

/-- Every entry of the tree has its child, and a child with an id has its entry. -/
structure ShowsTree (g : GitEngine) (v : VfsManager) (d : Nat) (n : VfsNode) : Prop where
  entry : ∀ name e, lastEntry (treeEntries g n.oid) name = some e → ∃ i c, v.liveChild d name = some i ∧
    v.nodes i = some c ∧ c.mode = e.mode ∧ c.oid = e.oid ∧ c.isDir = e.mode.isDir
  child : ∀ name i c, v.liveChild d name = some i → v.nodes i = some c → c.oid ≠ [] →
    ∃ e, lastEntry (treeEntries g n.oid) name = some e

/-- The directories of these that a path leads to and that were populated show their trees. -/
def Undisturbed (g : GitEngine) (v : VfsManager) (dirty : List Nat) : Prop :=
  ∀ path d n ids, placeAt g v path = some (.node d) → v.nodes d = some n → v.dirChildren d = some ids →
    d ∉ dirty → ShowsTree g v d n

/-- With a directory, the one above it is among these. -/
def ClosedUp (v : VfsManager) (dirty : List Nat) : Prop :=
  ∀ d ∈ dirty, d ≠ rootInode → ∀ n, v.getNode d = some n → n.parentId ∈ dirty

/-- A path without a name that is left out of commits. -/
def PlainPath (path : List Str) : Prop := ∀ name ∈ path, isAppleMetadata name = false

/-- A file that a commit can have got its blob. -/
def FilesStamped (v : VfsManager) : Prop :=
  ∀ i n, v.getNode i = some n → n.isDir = false → isAppleMetadata n.name = false → n.oid ≠ []

theorem fileIn_of_noEntries {oid : Str} (h : treeEntries g oid = []) (path : List Str) : g.fileIn oid path = none := by
  cases path with
  | nil => rfl
  | cons name path =>
    rw [GitEngine.fileIn, h]
    split_ifs <;> rfl

/-- The child that a name leads to. -/
theorem liveChild_facts (hv : v.WellFormed) {d i : Nat} {name : Str} (h : v.liveChild d name = some i) :
    ∃ c, v.getNode i = some c ∧ c.parentId = d ∧ c.name = name ∧ i ≠ rootInode := by
  obtain ⟨hmap, c, hc⟩ := liveChild_eq_some.mp h
  obtain ⟨m, hm, hparent, hname, hroot⟩ := mapped_node hv hmap
  rw [(getNode_eq_some.mp hc).1, Option.some.injEq] at hm
  subst hm
  exact ⟨c, hc, hparent, hname, hroot⟩

theorem placeAt_child {path : List Str} {d i : Nat} {name : Str} {ids : List Nat}
    (hd : placeAt g v path = some (.node d)) (hids : v.dirChildren d = some ids) (hdots : isDots name = false)
    (h : v.liveChild d name = some i) : placeAt g v (path ++ [name]) = some (.node i) := by
  rw [placeAt, placeFrom, Walk.walk_concat]
  rw [placeAt, placeFrom] at hd
  rw [hd, Option.bind_some, childAt_listed hdots hids, h]
  rfl

/-- Below a directory that is not among these, everything is as the tree has it. -/
theorem fileFrom_undisturbed (hv : v.WellFormed) (hempty : treeEntries g [] = []) {dirty : List Nat}
    (hclosed : ClosedUp v dirty) (hshows : Undisturbed g v dirty) (hstamped : FilesStamped v) {path above : List Str}
    (hpath : PlainPath path) {d : Nat} {n : VfsNode} (habove : placeAt g v above = some (.node d))
    (hn : v.nodes d = some n) (hdir : n.isDir = true) (hclean : d ∉ dirty) :
    fileFrom g v (.node d) path = g.fileIn n.oid path := by
  induction path generalizing above d n with
  | nil => exact fileFrom_dir_nil hn hdir
  | cons name path ih =>
    cases hids : v.dirChildren d with
    | none => exact fileFrom_unlisted hids hn hdir _
    | some ids =>
      have hrest : PlainPath path := fun part hpart => hpath part (List.mem_cons_of_mem _ hpart)
      obtain ⟨hentry, hchild⟩ := hshows above d n ids habove hn hids hclean
      rw [fileFrom_listed hids, GitEngine.fileIn]
      cases hdots : isDots name with
      | true => rfl
      | false =>
        rw [if_neg Bool.false_ne_true, if_neg Bool.false_ne_true]
        have hbelow {i : Nat} {c : VfsNode} (hlive : v.liveChild d name = some i) (hc : v.nodes i = some c)
            (hcdir : c.isDir = true) : fileFrom g v (.node i) path = g.fileIn c.oid path := by
          obtain ⟨m, hm, hparent, -, hroot⟩ := liveChild_facts hv hlive
          refine ih hrest (placeAt_child habove hids hdots hlive) hc hcdir fun hi => hclean ?_
          exact hparent ▸ hclosed i hi hroot m hm
        cases he : lastEntry (treeEntries g n.oid) name with
        | some e =>
          obtain ⟨i, c, hlive, hc, hmode, hoid, hkind⟩ := hentry name e he
          rw [hlive, Option.bind_some, Option.bind_some]
          by_cases hcdir : c.isDir = true
          · rw [hbelow hlive hc hcdir, if_pos (hkind ▸ hcdir), hoid]
          · rw [fileFrom_file hv hc (Bool.eq_false_iff.mpr hcdir), hmode, hoid, ← hkind, if_neg hcdir]
        | none =>
          rw [Option.bind_none]
          cases hlive : v.liveChild d name with
          | none => rfl
          | some i =>
            obtain ⟨c, hc, -, hname, -⟩ := liveChild_facts hv hlive
            obtain ⟨hnode, -⟩ := getNode_eq_some.mp hc
            -- a child without an entry is a directory that is new
            have hnew : c.oid = [] := by
              by_contra hne
              obtain ⟨e, he'⟩ := hchild name i c hlive hnode hne
              rw [he] at he'
              cases he'
            have hcdir : c.isDir = true := by
              by_contra hfile
              exact hstamped i c hc (Bool.eq_false_iff.mpr hfile) (hname ▸ hpath name List.mem_cons_self) hnew
            rw [Option.bind_some, hbelow hlive hnode hcdir, hnew, fileIn_of_noEntries hempty]

/-- Where the other directories are as their trees have them, the commit has what is there. -/
theorem committedFile_undisturbed (hv : v.WellFormed) (hempty : treeEntries g [] = []) {dirty : List Nat}
    (hclosed : ClosedUp v dirty) (hshows : Undisturbed g v dirty) (hstamped : FilesStamped v)
    (hlisted : ∀ d ∈ dirty, d ≠ rootInode → ∃ ids, v.dirChildren d = some ids) {path above : List Str}
    (hpath : PlainPath path) {d : Nat} {n : VfsNode} {ids : List Nat} (habove : placeAt g v above = some (.node d))
    (hn : v.nodes d = some n) (hdir : n.isDir = true) (hids : v.dirChildren d = some ids) :
    committedFile g v dirty d path = fileFrom g v (.node d) path := by
  induction path generalizing above d n ids with
  | nil => exact (fileFrom_dir_nil hn hdir).symm
  | cons name path ih =>
    have hrest : PlainPath path := fun part hpart => hpath part (List.mem_cons_of_mem _ hpart)
    rw [fileFrom_listed hids, committedFile]
    cases hdots : isDots name with
    | true => rfl
    | false =>
      rw [if_neg Bool.false_ne_true, if_neg Bool.false_ne_true]
      cases hlive : v.liveChild d name with
      | none => rfl
      | some i =>
        obtain ⟨c, hc, -, -, hroot⟩ := liveChild_facts hv hlive
        obtain ⟨hnode, -⟩ := getNode_eq_some.mp hc
        have hplace := placeAt_child habove hids hdots hlive
        rw [Option.bind_some, Option.bind_some, hnode, Option.bind_some]
        by_cases hcdir : c.isDir = true
        · rw [if_pos hcdir]
          by_cases hmem : i ∈ dirty
          · obtain ⟨ids', hids'⟩ := hlisted i hmem hroot
            rw [if_pos (List.contains_iff_mem.mpr hmem)]
            exact ih hrest hplace hnode hcdir hids'
          · rw [if_neg fun h => hmem (List.contains_iff_mem.mp h)]
            exact (fileFrom_undisturbed hv hempty hclosed hshows hstamped hrest hplace hnode hcdir hmem).symm
        · rw [if_neg hcdir, fileFrom_file hv hnode (Bool.eq_false_iff.mpr hcdir)]

end VfsManager

end GitNfs
