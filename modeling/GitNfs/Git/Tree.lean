import GitNfs.Git.Object

/-! # Git trees -/

namespace GitNfs

inductive TreeEntryMode where
  | regularFile
  | executableFile
  | directory
  | symlink
  | submodule
  | other (m : Nat)
  deriving DecidableEq, Repr

def octalDigits : Str → Nat → Option Nat
  | [], acc => some acc
  | c :: cs, acc => if '0' ≤ c ∧ c ≤ '7' then octalDigits cs (8 * acc + (c.toNat - 48)) else none

/-- `u32::from_str_radix(s, 8)`. -/
def fromStrRadix8 (s : Str) : Option Nat :=
  let digits := match s with
    | '+' :: rest => rest
    | _ => s
  if digits = [] then none
  else match octalDigits digits 0 with
    | some n => if n < 2 ^ 32 then some n else none
    | none => none

namespace TreeEntryMode

def fromModeStr (s : Str) : TreeEntryMode :=
  if s = "100644".toList then regularFile
  else if s = "100755".toList then executableFile
  else if s = "40000".toList ∨ s = "040000".toList then directory
  else if s = "120000".toList then symlink
  else if s = "160000".toList then submodule
  else other ((fromStrRadix8 s).getD 0o100644)

def isDir (m : TreeEntryMode) : Bool := m = directory

def isSymlink (m : TreeEntryMode) : Bool := m = symlink

def posixMode : TreeEntryMode → Nat
  | regularFile => 0o100644
  | executableFile => 0o100755
  | directory => 0o040755
  | symlink => 0o120777
  | submodule => 0o040755
  | other m => m

/-- How `rebuild_tree_recursive` writes a mode into a tree. -/
def modeStr : TreeEntryMode → Str
  | regularFile => "100644".toList
  | executableFile => "100755".toList
  | directory => "40000".toList
  | symlink => "120000".toList
  | submodule => "160000".toList
  | other m => Nat.toDigits 8 m

@[simp] theorem isDir_directory : directory.isDir = true := rfl

end TreeEntryMode

structure GitTreeEntry where
  mode : TreeEntryMode
  name : Str
  oid : Str
  deriving DecidableEq, Repr

structure GitTree where
  entries : List GitTreeEntry
  deriving DecidableEq, Repr

/-! ## Reading a tree -/

/-- The bytes before the first `b` and the bytes after it. -/
def splitAtByte (b : UInt8) (data : Bytes) : Option (Bytes × Bytes) :=
  match data.dropWhile (· != b) with
  | [] => none
  | _ :: rest => some (data.takeWhile (· != b), rest)

def parseEntries : Nat → Bytes → Except Error (List GitTreeEntry)
  | _, [] => .ok []
  | 0, _ :: _ => .error .truncatedSha
  | fuel + 1, b :: bs =>
    match splitAtByte 0x20 (b :: bs) with
    | none => .error .missingSpace
    | some (mode, rest) =>
      match fromUtf8 mode with
      | none => .error .invalidUtf8
      | some modeStr =>
        match splitAtByte 0 rest with
        | none => .error .missingNull
        | some (name, rest) =>
          match fromUtf8 name with
          | none => .error .invalidUtf8
          | some name =>
            if rest.length < 20 then .error .truncatedSha
            else
              match parseEntries fuel (rest.drop 20) with
              | .error e => .error e
              | .ok entries =>
                .ok (⟨TreeEntryMode.fromModeStr modeStr, name, hexEncode (rest.take 20)⟩ :: entries)

def GitTree.parse (data : Bytes) : Except Error GitTree :=
  match parseEntries data.length data with
  | .error e => .error e
  | .ok entries => .ok ⟨entries⟩

/-! ## Writing a tree and reading it back -/

/-- One entry as a tree holds it: `"<mode> <name>\0"` and the raw SHA. -/
def rawEntry (mode : TreeEntryMode) (name : Str) (sha : Bytes) : Bytes :=
  asBytes (mode.modeStr ++ ' ' :: name) ++ 0 :: sha

theorem asBytes_append (s t : Str) : asBytes (s ++ t) = asBytes s ++ asBytes t := by
  simp [asBytes]

theorem asBytes_cons_space (s : Str) : asBytes (' ' :: s) = 0x20 :: asBytes s := rfl

theorem splitAtByte_append (b : UInt8) (l r : Bytes) (h : b ∉ l) :
    splitAtByte b (l ++ b :: r) = some (l, r) := by
  have hl : ∀ x ∈ l, (x != b) = true := by
    intro x hx
    simp only [bne_iff_ne, ne_eq]
    rintro rfl
    exact h hx
  rw [splitAtByte, List.dropWhile_append_of_pos hl, List.takeWhile_append_of_pos hl]
  simp

/-- A byte below 0x80 stands in the UTF-8 of a string only for its own character. -/
theorem ascii_mem_asBytes (n : Nat) (hn : n < 0x80) (s : Str)
    (h : UInt8.ofNat n ∈ asBytes s) : Char.ofNat n ∈ s := by
  simp only [asBytes, List.mem_flatMap] at h
  obtain ⟨c, hc, hb⟩ := h
  suffices hcn : c = Char.ofNat n by rwa [← hcn]
  have hv : c.toNat = n := by
    unfold String.utf8EncodeChar at hb
    simp only at hb
    split_ifs at hb with h1 h2 h3
    all_goals
      simp only [List.mem_cons, List.not_mem_nil, or_false, ← UInt8.toNat_inj] at hb
      simp at hb h1
      omega
  rw [← hv, Char.ofNat_toNat]

theorem modeStr_no_space (m : TreeEntryMode) : ' ' ∉ m.modeStr := by
  cases m with
  | other n =>
    intro h
    have := Nat.isDigit_of_mem_toDigits (b := 8) (by omega) (by omega) h
    exact absurd this (by decide)
  | _ => decide

theorem parseEntries_rawEntry (mode : TreeEntryMode) (name : Str) (sha rest : Bytes) (fuel : Nat)
    (hname : Char.ofNat 0 ∉ name) (hsha : sha.length = 20) :
    parseEntries (fuel + 1) (rawEntry mode name sha ++ rest) =
      match parseEntries fuel rest with
      | .error e => .error e
      | .ok entries =>
        .ok (⟨TreeEntryMode.fromModeStr mode.modeStr, name, hexEncode sha⟩ :: entries) := by
  have hraw : rawEntry mode name sha ++ rest =
      asBytes mode.modeStr ++ 0x20 :: (asBytes name ++ 0 :: (sha ++ rest)) := by
    simp [rawEntry, asBytes_append, asBytes_cons_space]
  obtain ⟨b, bs, hb⟩ := List.exists_cons_of_ne_nil
    (l := asBytes mode.modeStr ++ 0x20 :: (asBytes name ++ 0 :: (sha ++ rest))) (by simp)
  have h1 : splitAtByte 0x20 (b :: bs) =
      some (asBytes mode.modeStr, asBytes name ++ 0 :: (sha ++ rest)) := by
    rw [← hb]
    exact splitAtByte_append _ _ _
      (fun h => modeStr_no_space mode (ascii_mem_asBytes 0x20 (by omega) _ h))
  have h2 : splitAtByte 0 (asBytes name ++ 0 :: (sha ++ rest)) = some (asBytes name, sha ++ rest) :=
    splitAtByte_append _ _ _ (fun h => hname (ascii_mem_asBytes 0 (by omega) _ h))
  have hlen : ¬ (sha ++ rest).length < 20 := by simp; omega
  rw [hraw, hb, parseEntries, h1]
  simp only [fromUtf8_asBytes, h2, if_neg hlen]
  rw [← hsha, List.drop_left, List.take_left]

/-- The bytes of a tree: its entries one after the other. -/
def rawTree (es : List (TreeEntryMode × Str × Bytes)) : Bytes :=
  es.flatMap fun e => rawEntry e.1 e.2.1 e.2.2

/-- What `GitTree::parse` makes of an entry that was written with `rawEntry`. -/
def readBack (e : TreeEntryMode × Str × Bytes) : GitTreeEntry :=
  ⟨TreeEntryMode.fromModeStr e.1.modeStr, e.2.1, hexEncode e.2.2⟩

theorem parseEntries_rawTree (es : List (TreeEntryMode × Str × Bytes))
    (h : ∀ e ∈ es, Char.ofNat 0 ∉ e.2.1 ∧ e.2.2.length = 20) (fuel : Nat) (hf : es.length ≤ fuel) :
    parseEntries fuel (rawTree es) = .ok (es.map readBack) := by
  induction es generalizing fuel with
  | nil => cases fuel <;> rfl
  | cons e es ih =>
    obtain ⟨n, rfl⟩ : ∃ n, fuel = n + 1 := ⟨fuel - 1, by simp at hf; omega⟩
    obtain ⟨hname, hsha⟩ := h e List.mem_cons_self
    rw [rawTree, List.flatMap_cons, parseEntries_rawEntry _ _ _ _ _ hname hsha, ← rawTree,
      ih (fun x hx => h x (List.mem_cons_of_mem _ hx)) n (by simp at hf; omega)]
    rfl

theorem length_le_rawTree (es : List (TreeEntryMode × Str × Bytes)) :
    es.length ≤ (rawTree es).length := by
  induction es with
  | nil => simp
  | cons e es ih =>
    simp only [rawTree, List.flatMap_cons, List.length_append, List.length_cons] at ih ⊢
    have : 0 < (rawEntry e.1 e.2.1 e.2.2).length := List.length_pos_iff.mpr (by simp [rawEntry])
    omega

/-- A tree that was written reads back entry by entry. -/
theorem parse_rawTree (es : List (TreeEntryMode × Str × Bytes))
    (h : ∀ e ∈ es, Char.ofNat 0 ∉ e.2.1 ∧ e.2.2.length = 20) :
    GitTree.parse (rawTree es) = .ok ⟨es.map readBack⟩ := by
  rw [GitTree.parse, parseEntries_rawTree es h _ (length_le_rawTree es)]

theorem splitAtByte_eq (b : UInt8) (data l r : Bytes) (h : splitAtByte b data = some (l, r)) :
    b ∉ l := by
  unfold splitAtByte at h
  split at h
  · simp at h
  · simp only [Option.some.injEq, Prod.mk.injEq] at h
    obtain ⟨rfl, -⟩ := h
    intro hb
    simpa using List.mem_takeWhile_imp hb

theorem ofNat_mem_asBytes (c : Char) (hc : c.toNat < 0x80) (s : Str) (h : c ∈ s) :
    UInt8.ofNat c.toNat ∈ asBytes s := by
  refine List.mem_flatMap.mpr ⟨c, h, ?_⟩
  have hv : c.toNat ≤ 0x7f := by omega
  simp [String.utf8EncodeChar, hv]

/-- A name that `GitTree::parse` reads has no NUL, and its SHA is twenty bytes in hexadecimal. -/
theorem parseEntries_mem (fuel : Nat) (data : Bytes) (es : List GitTreeEntry)
    (h : parseEntries fuel data = .ok es) :
    ∀ e ∈ es, Char.ofNat 0 ∉ e.name ∧ IsOid e.oid := by
  induction fuel generalizing data es with
  | zero =>
    cases data with
    | nil => simp only [parseEntries, Except.ok.injEq] at h; subst h; simp
    | cons b bs => simp [parseEntries] at h
  | succ n ih =>
    cases data with
    | nil => simp only [parseEntries, Except.ok.injEq] at h; subst h; simp
    | cons b bs =>
      rw [parseEntries] at h
      split at h
      · simp at h
      split at h
      · simp at h
      split at h
      · simp at h
      rename_i rest _ _ _ name rest' hsplit
      split at h
      · simp at h
      rename_i s hs
      split_ifs at h with hlen
      split at h
      · simp at h
      rename_i tail htail
      simp only [Except.ok.injEq] at h
      subst h
      intro e he
      rcases List.mem_cons.mp he with rfl | he
      · refine ⟨fun h0 => ?_, rest'.take 20, ?_, rfl⟩
        · have hmem := ofNat_mem_asBytes (Char.ofNat 0) (by decide) s h0
          rw [asBytes_of_fromUtf8 _ _ hs] at hmem
          exact splitAtByte_eq _ _ _ _ hsplit hmem
        · rw [List.length_take]; omega
      · exact ih _ _ htail e he

theorem parse_mem (data : Bytes) (t : GitTree) (h : GitTree.parse data = .ok t) :
    ∀ e ∈ t.entries, Char.ofNat 0 ∉ e.name ∧ IsOid e.oid := by
  unfold GitTree.parse at h
  split at h
  · simp at h
  · rename_i es hes
    simp only [Except.ok.injEq] at h
    subst h
    exact parseEntries_mem _ _ _ hes

end GitNfs
