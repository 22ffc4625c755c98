import GitNfs.Git.CommitMessage
import GitNfs.Lib.Tally
import Mathlib.Algebra.BigOperators.Group.List.Lemmas
import Mathlib.Algebra.GroupWithZero.Nat

/-! # What a commit message says of the paths

The counts come out of a hash map in any order, and the message must not show which. It must show every top-level
location with what was changed in it.
-/

namespace GitNfs

/-! ## The message, with the order of the map -/

/-- The paths that are kept, as the ordered set of them. -/
def validPaths (changedPaths : List Str) : List Str := sortBy compareStr (changedPaths.filterMap cleanPath).dedup

/-- More files first, then by name. -/
def compareDirs (a b : Str × Nat) : Ordering := (compare b.2 a.2).then (compareStr a.1 b.1)

def subjectOf (totalFiles : Nat) (sortedDirs : List (Str × Nat)) : Str :=
  let update := "Update ".toList ++ decimal totalFiles ++ " files ".toList
  match sortedDirs with
  | [] => update ++ "across ".toList
  | [(d, _)] => update ++ "in ".toList ++ d
  | a :: b :: rest =>
    if rest.length ≤ 1 then
      update ++ "across ".toList ++ joinWith ", ".toList (sortedDirs.map (·.1))
    else
      let others :=
        if rest.length = 1 then "1 other directory".toList
        else decimal rest.length ++ " other directories".toList
      update ++ "across ".toList ++ a.1 ++ ", ".toList ++ b.1 ++ " (and ".toList ++ others ++ [')']

def dirLine (entry : Str × Nat) : Str :=
  "- ".toList ++ entry.1 ++ " (".toList ++ decimal entry.2 ++ [' '] ++
    (if entry.2 = 1 then "file".toList else "files".toList) ++ ")\n".toList

def messageOf (files : List Str) (sortedDirs : List (Str × Nat)) : Str :=
  if files = [] then "Empty commit: no files changed".toList
  else if files.length ≤ 3 then "Update ".toList ++ joinWith ", ".toList files
  else subjectOf files.length sortedDirs ++ "\n\nChanged directories:\n".toList ++ sortedDirs.flatMap dirLine

/-- An order in which the map of the counts may give its entries. -/
def DirCounts (files : List Str) : Type :=
  {dirCounts : List (Str × Nat) // dirCounts.Perm (Tally.pairs (Tally.tally (files.map topDir)))}

def sortedDirs {files : List Str} (dirCounts : DirCounts files) : List (Str × Nat) := sortBy compareDirs dirCounts.1

/-- `generate_commit_message`, with the order of the map. -/
def messageIn (changedPaths : List Str) (dirCounts : DirCounts (validPaths changedPaths)) : Str :=
  messageOf (validPaths changedPaths) (sortedDirs dirCounts)

/-! ## What is to be counted -/

inductive Location where
  /-- The root of the repository, for paths without a slash. -/
  | root
  | dir (name : Str)
  deriving DecidableEq, Repr

def topLocation (file : Str) : Location := if '/' ∈ file then .dir (file.takeWhile (· ≠ '/')) else .root

def Location.label : Location → Str
  | root => "root/".toList
  | dir name => name ++ ['/']

theorem topDir_eq (file : Str) : topDir file = (topLocation file).label := by
  unfold topDir topLocation
  split_ifs <;> rfl

/-- Every location once, with the number of its paths, in order, and with nothing left out. -/
structure ListsLocations (files : List Str) (entries : List (Str × Nat)) : Prop where
  once : ∃ locations : List Location, locations.Nodup ∧
    (∀ location, location ∈ locations ↔ ∃ file ∈ files, topLocation file = location) ∧
    entries = locations.map fun location => (location.label, files.countP fun file => topLocation file = location)
  sorted : entries.Pairwise fun a b => b.2 < a.2 ∨ a.2 = b.2 ∧ compareStr a.1 b.1 = .lt
  total : (entries.map (·.2)).sum = files.length

/-- No path of the root stands beside a path below a directory `root`. -/
def RootApart (files : List Str) : Prop :=
  ∀ file ∈ files, ∀ file' ∈ files, topLocation file = .root → topLocation file' ≠ .dir "root".toList

/-! ## Sorting does not show the order before -/

theorem sortBy_eq_of_perm {α : Type} {cmp : α → α → Ordering} {l l' : List α}
    (htotal : ∀ a b, (cmp a b).isLE ∨ (cmp b a).isLE)
    (htrans : ∀ a b c, (cmp a b).isLE → (cmp b c).isLE → (cmp a c).isLE)
    (hantisymm : ∀ a b, (cmp a b).isLE → (cmp b a).isLE → a = b) (h : l.Perm l') :
    sortBy cmp l = sortBy cmp l' := by
  have total : Std.Total fun a b : α => ((cmp a b).isLE : Prop) := ⟨htotal⟩
  have trans : IsTrans α fun a b => (cmp a b).isLE := ⟨htrans⟩
  refine List.Perm.eq_of_pairwise (fun a b _ _ => hantisymm a b) (List.pairwise_insertionSort _ l)
    (List.pairwise_insertionSort _ l') ?_
  exact (sortBy_perm cmp l).trans (h.trans (sortBy_perm cmp l').symm)

theorem compareStr_antisymm {s t : Str} (hst : (compareStr s t).isLE) (hts : (compareStr t s).isLE) : s = t := by
  unfold compareStr at hst hts
  rw [compareBytes_swap] at hts
  refine asBytes_injective ((compareBytes_eq_iff _ _).mp ?_)
  cases hcmp : compareBytes (asBytes s) (asBytes t) with
  | eq => rfl
  | lt => rw [hcmp] at hts; exact absurd hts (by decide)
  | gt => rw [hcmp] at hst; exact absurd hst (by decide)

theorem compareDirs_isLE (a b : Str × Nat) :
    (compareDirs a b).isLE ↔ b.2 < a.2 ∨ a.2 = b.2 ∧ (compareStr a.1 b.1).isLE := by
  unfold compareDirs
  rcases Nat.lt_trichotomy b.2 a.2 with hlt | heq | hgt
  · simp [Nat.compare_eq_lt.mpr hlt, hlt]
  · simp [heq]
  · simp [Nat.compare_eq_gt.mpr hgt, Nat.lt_asymm hgt, Nat.ne_of_lt hgt]

theorem compareDirs_total (a b : Str × Nat) : (compareDirs a b).isLE ∨ (compareDirs b a).isLE := by
  simp only [compareDirs_isLE]
  rcases Nat.lt_trichotomy b.2 a.2 with hlt | heq | hgt
  · exact .inl (.inl hlt)
  · exact (compareBytes_total (asBytes a.1) (asBytes b.1)).imp (fun h => .inr ⟨heq.symm, h⟩) fun h => .inr ⟨heq, h⟩
  · exact .inr (.inl hgt)

theorem compareDirs_trans (a b c : Str × Nat) (hab : (compareDirs a b).isLE) (hbc : (compareDirs b c).isLE) :
    (compareDirs a c).isLE := by
  rw [compareDirs_isLE] at hab hbc ⊢
  rcases hab with hab | ⟨hab, hle⟩ <;> rcases hbc with hbc | ⟨hbc, hle'⟩
  · exact .inl (by omega)
  · exact .inl (by omega)
  · exact .inl (by omega)
  · exact .inr ⟨by omega, compareBytes_trans hle hle'⟩

theorem compareDirs_antisymm (a b : Str × Nat) (hab : (compareDirs a b).isLE) (hba : (compareDirs b a).isLE) :
    a = b := by
  rw [compareDirs_isLE] at hab hba
  rcases hab with hab | ⟨hab, hle⟩
  · omega
  · rcases hba with hba | ⟨-, hle'⟩
    · omega
    · exact Prod.ext (compareStr_antisymm hle hle') hab

theorem sortDirs_pairwise (l : List (Str × Nat)) :
    (sortBy compareDirs l).Pairwise fun a b => (compareDirs a b).isLE := by
  have total : Std.Total fun a b : Str × Nat => ((compareDirs a b).isLE : Prop) := ⟨compareDirs_total⟩
  have trans : IsTrans (Str × Nat) fun a b => (compareDirs a b).isLE := ⟨compareDirs_trans⟩
  exact List.pairwise_insertionSort _ l

theorem sortDirs_eq_of_perm {l l' : List (Str × Nat)} (h : l.Perm l') :
    sortBy compareDirs l = sortBy compareDirs l' :=
  sortBy_eq_of_perm compareDirs_total compareDirs_trans compareDirs_antisymm h

/-- The paths are those of the set. -/
theorem validPaths_eq {changedPaths others : List Str}
    (h : ∀ file, file ∈ others.filterMap cleanPath ↔ file ∈ changedPaths.filterMap cleanPath) :
    validPaths others = validPaths changedPaths := by
  refine sortBy_eq_of_perm (fun s t => compareBytes_total _ _) (fun _ _ _ => compareBytes_trans)
    (fun s t => compareStr_antisymm) ?_
  rw [List.perm_ext_iff_of_nodup (List.nodup_dedup _) (List.nodup_dedup _)]
  simpa only [List.mem_dedup] using h

theorem sortedDirs_eq {files : List Str} (dirCounts dirCounts' : DirCounts files) :
    sortedDirs dirCounts = sortedDirs dirCounts' :=
  sortDirs_eq_of_perm (dirCounts.2.trans dirCounts'.2.symm)

theorem messageOf_eq {files files' : List Str} (h : files = files') (dirCounts : DirCounts files)
    (dirCounts' : DirCounts files') : messageOf files (sortedDirs dirCounts) = messageOf files' (sortedDirs dirCounts') := by
  subst h
  rw [sortedDirs_eq dirCounts dirCounts']

/-- The message of the model is the message for every order of the map. -/
theorem messageIn_eq (changedPaths : List Str) (dirCounts : DirCounts (validPaths changedPaths)) :
    messageIn changedPaths dirCounts = generateCommitMessage changedPaths := by
  have hdirs := sortDirs_eq_of_perm (dirCounts.2.trans (Tally.tally_pairs_perm _))
  rw [lawful_beq_subsingleton (α := Str) instBEqOfDecidableEq List.instBEq] at hdirs
  rw [messageIn, sortedDirs, hdirs]
  rfl

theorem subjectOf_total (totalFiles : Nat) (dirs : List (Str × Nat)) :
    ∃ rest, subjectOf totalFiles dirs = "Update ".toList ++ decimal totalFiles ++ " files ".toList ++ rest := by
  unfold subjectOf
  split
  · exact ⟨_, rfl⟩
  · simp only [List.append_assoc]
    exact ⟨_, rfl⟩
  · split <;> simp only [List.append_assoc] <;> exact ⟨_, rfl⟩

/-- The subject counts the paths, and the body has one line for each entry. -/
theorem messageIn_text {changedPaths : List Str} (hmany : 3 < (validPaths changedPaths).length)
    (dirCounts : DirCounts (validPaths changedPaths)) :
    ∃ rest, messageIn changedPaths dirCounts =
      "Update ".toList ++ decimal (validPaths changedPaths).length ++ " files ".toList ++ rest ++
        "\n\nChanged directories:\n".toList ++ (sortedDirs dirCounts).flatMap dirLine := by
  have hne : validPaths changedPaths ≠ [] := by
    intro hnil
    rw [hnil] at hmany
    exact absurd hmany (by decide)
  obtain ⟨rest, hrest⟩ := subjectOf_total (validPaths changedPaths).length (sortedDirs dirCounts)
  refine ⟨rest, ?_⟩
  rw [messageIn, messageOf, if_neg hne, if_neg (Nat.not_le.mpr hmany), hrest]

/-! ## Locations and their labels -/

theorem label_injective {l l' : Location} (h : l.label = l'.label) :
    l = l' ∨ l = .root ∧ l' = .dir "root".toList ∨ l = .dir "root".toList ∧ l' = .root := by
  have hroot {name : Str} (hname : "root/".toList = name ++ ['/']) : name = "root".toList := by
    have hslash : "root".toList ++ ['/'] = name ++ ['/'] := hname
    exact (List.append_cancel_right hslash).symm
  cases l with
  | root =>
    cases l' with
    | root => exact .inl rfl
    | dir name => exact .inr (.inl ⟨rfl, congrArg _ (hroot h)⟩)
  | dir name =>
    cases l' with
    | root => exact .inr (.inr ⟨congrArg _ (hroot h.symm), rfl⟩)
    | dir name' => exact .inl (congrArg _ (List.append_cancel_right h))

/-- Apart from the root, a label says which location it is. -/
theorem RootApart.location_eq {files : List Str} (h : RootApart files) {file file' : Str} (hfile : file ∈ files)
    (hfile' : file' ∈ files) (hdir : topDir file = topDir file') : topLocation file = topLocation file' := by
  rw [topDir_eq, topDir_eq] at hdir
  rcases label_injective hdir with heq | ⟨hroot, hname⟩ | ⟨hname, hroot⟩
  · exact heq
  · exact absurd hname (h file hfile file' hfile' hroot)
  · exact absurd hname (h file' hfile' file hfile hroot)

section Listing

variable {files : List Str} (dirCounts : DirCounts files)

theorem sortedDirs_perm :
    (sortedDirs dirCounts).Perm ((files.map topDir).dedup.map fun d => (d, (files.map topDir).count d)) := by
  have h := Tally.tally_pairs_perm (files.map topDir)
  rw [lawful_beq_subsingleton (α := Str) instBEqOfDecidableEq List.instBEq] at h
  exact (sortBy_perm _ _).trans (dirCounts.2.trans h)

theorem mem_sortedDirs {d : Str} {n : Nat} :
    (d, n) ∈ sortedDirs dirCounts ↔ (∃ file ∈ files, topDir file = d) ∧ n = (files.map topDir).count d := by
  rw [(sortedDirs_perm dirCounts).mem_iff, List.mem_map]
  simp only [List.mem_dedup, List.mem_map, Prod.mk.injEq]
  constructor
  · rintro ⟨d', hd', rfl, rfl⟩
    exact ⟨hd', rfl⟩
  · rintro ⟨hd, rfl⟩
    exact ⟨d, hd, rfl, rfl⟩

theorem sortedDirs_labels_nodup : ((sortedDirs dirCounts).map (·.1)).Nodup := by
  rw [((sortedDirs_perm dirCounts).map _).nodup_iff, List.map_map]
  simpa only [Function.comp_def, List.map_id'] using List.nodup_dedup (files.map topDir)

theorem sortedDirs_sorted :
    (sortedDirs dirCounts).Pairwise fun a b => b.2 < a.2 ∨ a.2 = b.2 ∧ compareStr a.1 b.1 = .lt := by
  refine ((sortDirs_pairwise _).and (List.pairwise_map.mp (sortedDirs_labels_nodup dirCounts))).imp ?_
  rintro a b ⟨hle, hne⟩
  rcases (compareDirs_isLE a b).mp hle with hlt | ⟨heq, hle⟩
  · exact .inl hlt
  · refine .inr ⟨heq, ?_⟩
    cases hcmp : compareStr a.1 b.1 with
    | lt => rfl
    | eq => exact absurd (asBytes_injective ((compareBytes_eq_iff _ _).mp hcmp)) hne
    | gt =>
      rw [hcmp] at hle
      exact absurd hle (by decide)

theorem sortedDirs_total : ((sortedDirs dirCounts).map (·.2)).sum = files.length := by
  rw [((sortedDirs_perm dirCounts).map _).sum_eq, List.map_map]
  have h := List.sum_map_count_dedup_eq_length (files.map topDir)
  rw [List.length_map, lawful_beq_subsingleton (α := Str) instBEqOfDecidableEq List.instBEq] at h
  exact h

/-- The location that an entry is for. -/
def locationOf (files : List Str) (d : Str) : Location :=
  match files.find? (topDir · = d) with
  | some file => topLocation file
  | none => .root

variable {dirCounts}

theorem locationOf_spec {d : Str} {n : Nat} (h : (d, n) ∈ sortedDirs dirCounts) :
    ∃ file ∈ files, topDir file = d ∧ locationOf files d = topLocation file := by
  obtain ⟨⟨file, hfile, hd⟩, -⟩ := (mem_sortedDirs dirCounts).mp h
  unfold locationOf
  cases hfind : files.find? (topDir · = d) with
  | none => exact absurd hd (by simpa using List.find?_eq_none.mp hfind file hfile)
  | some file' => exact ⟨file', List.mem_of_find?_eq_some hfind, by simpa using List.find?_some hfind, rfl⟩

theorem locationOf_label {d : Str} {n : Nat} (h : (d, n) ∈ sortedDirs dirCounts) :
    (locationOf files d).label = d := by
  obtain ⟨file, -, hd, hloc⟩ := locationOf_spec h
  rw [hloc, ← topDir_eq, hd]

variable (dirCounts)

theorem listsLocations_of_apart (h : RootApart files) : ListsLocations files (sortedDirs dirCounts) where
  once := by
    refine ⟨(sortedDirs dirCounts).map fun entry => locationOf files entry.1, ?_, fun location => ?_, ?_⟩
    · refine List.pairwise_map.mpr ((List.pairwise_map.mp (sortedDirs_labels_nodup dirCounts)).imp_of_mem ?_)
      intro a b ha hb hne heq
      exact hne (by rw [← locationOf_label ha, ← locationOf_label hb, heq])
    · rw [List.mem_map]
      constructor
      · rintro ⟨⟨d, n⟩, hmem, rfl⟩
        obtain ⟨file, hfile, -, hloc⟩ := locationOf_spec hmem
        exact ⟨file, hfile, hloc.symm⟩
      · rintro ⟨file, hfile, rfl⟩
        have hmem := (mem_sortedDirs dirCounts).mpr ⟨⟨file, hfile, rfl⟩, rfl⟩
        obtain ⟨file', hfile', hd, hloc⟩ := locationOf_spec hmem
        exact ⟨_, hmem, hloc.trans (h.location_eq hfile' hfile hd)⟩
    · rw [List.map_map]
      refine (List.map_id _).symm.trans (List.map_congr_left ?_)
      rintro ⟨d, n⟩ hmem
      obtain ⟨-, rfl⟩ := (mem_sortedDirs dirCounts).mp hmem
      refine Prod.ext (locationOf_label hmem).symm ?_
      -- a path counts for the label exactly if it is in the location
      obtain ⟨file, hfile, hd, hloc⟩ := locationOf_spec hmem
      show (files.map topDir).count d = files.countP fun file => topLocation file = locationOf files d
      rw [hloc, List.count_eq_countP, List.countP_map]
      refine List.countP_congr fun file' hfile' => ?_
      simp only [Function.comp_apply, beq_iff_eq, decide_eq_true_eq]
      constructor
      · intro hlabel
        exact h.location_eq hfile' hfile (hlabel.trans hd.symm)
      · intro hlocation
        rw [topDir_eq, hlocation, ← topDir_eq, hd]
  sorted := sortedDirs_sorted dirCounts
  total := sortedDirs_total dirCounts

theorem apart_of_listsLocations (h : ListsLocations files (sortedDirs dirCounts)) : RootApart files := by
  obtain ⟨locations, hnodup, hmem, hentries⟩ := h.once
  have hlabels := sortedDirs_labels_nodup dirCounts
  rw [hentries, List.map_map] at hlabels
  intro file hfile file' hfile' hroot hdir
  have hinj := List.inj_on_of_nodup_map hlabels ((hmem .root).mpr ⟨file, hfile, hroot⟩)
    ((hmem (.dir "root".toList)).mpr ⟨file', hfile', hdir⟩) rfl
  exact absurd hinj (by simp)

end Listing

/-- The message depends on the set of the paths only. With more than three its body counts every location by itself
exactly if no path of the root stands beside a directory `root`. -/
theorem commit_message_counts_iff (changedPaths : List Str) (dirCounts : DirCounts (validPaths changedPaths)) :
    (∀ others (dirCounts' : DirCounts (validPaths others)),
      (∀ file, file ∈ others.filterMap cleanPath ↔ file ∈ changedPaths.filterMap cleanPath) →
        messageIn others dirCounts' = messageIn changedPaths dirCounts) ∧
    (3 < (validPaths changedPaths).length →
      (∃ rest, messageIn changedPaths dirCounts =
        "Update ".toList ++ decimal (validPaths changedPaths).length ++ " files ".toList ++ rest ++
          "\n\nChanged directories:\n".toList ++ (sortedDirs dirCounts).flatMap dirLine) ∧
      (ListsLocations (validPaths changedPaths) (sortedDirs dirCounts) ↔ RootApart (validPaths changedPaths))) := by
  refine ⟨fun others dirCounts' hsame => ?_, fun hmany => ⟨messageIn_text hmany dirCounts, ?_⟩⟩
  · exact messageOf_eq (validPaths_eq hsame) dirCounts' dirCounts
  · exact ⟨apart_of_listsLocations dirCounts, listsLocations_of_apart dirCounts⟩

/-- Two paths of the root, and two below a directory that has the name of its label. -/
def rootPaths : List Str := ["Makefile".toList, "README".toList, "root/a".toList, "root/b".toList]

theorem root_directory_is_not_told_apart : ∃ dirCounts : DirCounts (validPaths rootPaths),
    3 < (validPaths rootPaths).length ∧ sortedDirs dirCounts = [("root/".toList, 4)] ∧
      ¬ ListsLocations (validPaths rootPaths) (sortedDirs dirCounts) := by
  refine ⟨⟨_, List.Perm.refl _⟩, by decide +kernel, by decide +kernel, fun h => ?_⟩
  have hmem {file : Str} (hfile : (validPaths rootPaths).contains file = true) : file ∈ validPaths rootPaths :=
    List.contains_iff_mem.mp hfile
  exact apart_of_listsLocations _ h "Makefile".toList (hmem (by decide +kernel)) "root/a".toList
    (hmem (by decide +kernel)) (by decide) (by decide)

end GitNfs
