import GitNfs.Vfs.Inode
import Mathlib.Data.List.Sort

/-! # Commit messages -/

namespace GitNfs

/-- The order of `[u8]`, and of strings by their bytes. -/
def compareBytes : Bytes → Bytes → Ordering
  | [], [] => .eq
  | [], _ :: _ => .lt
  | _ :: _, [] => .gt
  | a :: as, b :: bs => if a < b then .lt else if b < a then .gt else compareBytes as bs

def compareStr (s t : Str) : Ordering := compareBytes (asBytes s) (asBytes t)

/-- `sort_by`: elements that compare equal keep their order. -/
def sortBy {α : Type} (cmp : α → α → Ordering) (l : List α) : List α :=
  l.insertionSort fun a b => (cmp a b).isLE

theorem compareBytes_eq_iff (a b : Bytes) : compareBytes a b = .eq ↔ a = b := by
  induction a generalizing b with
  | nil => cases b <;> simp [compareBytes]
  | cons x a ih =>
    cases b with
    | nil => simp [compareBytes]
    | cons y b =>
      rw [compareBytes]
      split_ifs with hlt hgt
      · simpa using fun h : x = y => absurd hlt (h ▸ UInt8.lt_irrefl x)
      · simpa using fun h : x = y => absurd hgt (h ▸ UInt8.lt_irrefl x)
      · have hxy : x = y := UInt8.le_antisymm (UInt8.not_lt.mp hgt) (UInt8.not_lt.mp hlt)
        simp [ih, hxy]

theorem compareBytes_swap (a b : Bytes) : compareBytes b a = (compareBytes a b).swap := by
  induction a generalizing b with
  | nil => cases b <;> rfl
  | cons x a ih =>
    cases b with
    | nil => rfl
    | cons y b =>
      rw [compareBytes, compareBytes]
      split_ifs with h h' h'
      · exact absurd (UInt8.lt_trans h h') (UInt8.lt_irrefl y)
      · rfl
      · rfl
      · exact ih b

theorem compareBytes_trans {a b c : Bytes} (hab : (compareBytes a b).isLE) (hbc : (compareBytes b c).isLE) :
    (compareBytes a c).isLE := by
  induction a generalizing b c with
  | nil => cases c <;> rfl
  | cons x a ih =>
    cases b with
    | nil => simp [compareBytes] at hab
    | cons y b =>
      cases c with
      | nil => simp [compareBytes] at hbc
      | cons z c =>
        rw [compareBytes] at hab hbc ⊢
        simp only [UInt8.lt_iff_toNat_lt] at hab hbc ⊢
        split_ifs at hab hbc ⊢ <;> first | rfl | omega | exact ih hab hbc | simp_all

theorem compareBytes_total (a b : Bytes) : (compareBytes a b).isLE ∨ (compareBytes b a).isLE := by
  rw [compareBytes_swap a b]
  cases compareBytes a b <;> decide

theorem sortBy_perm {α : Type} (cmp : α → α → Ordering) (l : List α) : (sortBy cmp l).Perm l :=
  List.perm_insertionSort _ l

/-- What is sorted by a key of bytes is in the order of the keys. -/
theorem sortBy_pairwise {α : Type} (key : α → Bytes) (l : List α) :
    (sortBy (fun a b => compareBytes (key a) (key b)) l).Pairwise fun a b => (compareBytes (key a) (key b)).isLE := by
  have htotal : Std.Total fun a b : α => ((compareBytes (key a) (key b)).isLE : Prop) :=
    ⟨fun a b => compareBytes_total (key a) (key b)⟩
  have htrans : IsTrans α fun a b => (compareBytes (key a) (key b)).isLE :=
    ⟨fun a b c hab hbc => compareBytes_trans hab hbc⟩
  exact List.pairwise_insertionSort _ l

/-- With different keys the order is strict. -/
theorem sortBy_strict {α : Type} (key : α → Bytes) {l : List α} (hnodup : (l.map key).Nodup) :
    (sortBy (fun a b => compareBytes (key a) (key b)) l).Pairwise fun a b => compareBytes (key a) (key b) = .lt := by
  have hsorted := ((sortBy_perm (fun a b => compareBytes (key a) (key b)) l).map key).nodup_iff.mpr hnodup
  refine ((sortBy_pairwise key l).and (List.pairwise_map.mp hsorted)).imp fun {a b} hab => ?_
  obtain ⟨hle, hne⟩ := hab
  cases hcmp : compareBytes (key a) (key b) with
  | lt => rfl
  | eq => exact absurd ((compareBytes_eq_iff _ _).mp hcmp) hne
  | gt =>
    rw [hcmp] at hle
    exact absurd hle (by decide)

/-- What `generate_commit_message` keeps of a path, if anything. -/
def cleanPath (rawPath : Str) : Option Str :=
  let clean := trimMatches '/' (trim rawPath)
  if clean = [] then none
  else if (clean.splitOn '/').any isAppleMetadata then none
  else some clean

/-- The directory that a path counts for. -/
def topDir (file : Str) : Str :=
  if '/' ∈ file then file.takeWhile (· ≠ '/') ++ ['/'] else "root/".toList

def joinWith (sep : Str) (parts : List Str) : Str := sep.intercalate parts

def generateCommitMessage (changedPaths : List Str) : Str :=
  let files := sortBy compareStr (changedPaths.filterMap cleanPath).dedup
  if files = [] then "Empty commit: no files changed".toList
  else if files.length ≤ 3 then "Update ".toList ++ joinWith ", ".toList files
  else
    let tops := files.map topDir
    let sortedDirs := sortBy (fun a b => (compare b.2 a.2).then (compareStr a.1 b.1))
      (tops.dedup.map fun d => (d, tops.count d))
    let update := "Update ".toList ++ decimal files.length ++ " files ".toList
    let subject :=
      match sortedDirs with
      | [] => update ++ "across ".toList
      | [(d, _)] => update ++ "in ".toList ++ d
      | a :: b :: rest =>
        if rest.length ≤ 1 then
          update ++ "across ".toList ++ joinWith ", ".toList (sortedDirs.map (·.1))
        else
          let others :=
            if rest.length = 1 then "1 other directory".toList
            else decimal rest.length ++ " other directories".toList
          update ++ "across ".toList ++ a.1 ++ ", ".toList ++ b.1 ++ " (and ".toList ++ others ++ [')']
    let body := sortedDirs.flatMap fun (dir, count) =>
      "- ".toList ++ dir ++ " (".toList ++ decimal count ++ [' '] ++
        (if count = 1 then "file".toList else "files".toList) ++ ")\n".toList
    subject ++ "\n\nChanged directories:\n".toList ++ body

end GitNfs
