import GitNfs.Git.GcsStorage
import GitNfs.Lib.Tally

/-! # The refs of a server that only has files

`update_server_info` lists the refs for clients that can do no more than read files. It takes them from
packed-refs and from the loose refs, and the branch that was just written.
-/

namespace GitNfs.Bucket

/-! ## What the lines of packed-refs are taken for -/

inductive RefLine where
  /-- A comment, an empty line or one that is malformed. -/
  | skip
  | ref (sha name : Str)
  /-- What the ref of the line before is peeled to. -/
  | peel (sha : Str)
  deriving DecidableEq, Repr

def readRefLine (line : Str) : RefLine :=
  match trim line with
  | [] => .skip
  | '#' :: _ => .skip
  | '^' :: rest =>
    let peeled := trim (trimStartMatches ['^'] rest.length rest)
    if (asBytes peeled).length = 40 then .peel peeled else .skip
  | line =>
    match splitWhitespace line with
    | sha :: name :: _ => if (asBytes sha).length = 40 then .ref sha name else .skip
    | _ => .skip

def refLines (b : Bucket) : List RefLine :=
  match b.lookup "packed-refs".toList with
  | none => []
  | some bytes => (lines (fromUtf8Lossy bytes)).map readRefLine

/-- A line of a ref, and the lines up to the next line of a ref. -/
structure Block where
  sha : Str
  name : Str
  following : List RefLine
  deriving DecidableEq, Repr

/-- The lines before the first ref, and the refs. -/
def blocks : List RefLine → List RefLine × List Block
  | [] => ([], [])
  | .ref sha name :: ls => ([], ⟨sha, name, (blocks ls).1⟩ :: (blocks ls).2)
  | l :: ls => (l :: (blocks ls).1, (blocks ls).2)

/-- The last line of a ref counts. -/
def lastBlock (bs : List Block) (name : Str) : Option Block := (bs.filter fun b => b.name = name).getLast?

def RefLine.peel? : RefLine → Option Str
  | peel sha => some sha
  | _ => none

def lastPeel (ls : List RefLine) : Option Str := (ls.filterMap RefLine.peel?).getLast?

/-! ## The listing -/

/-- The refs with the loose ones that the listing has. An answer of the listing has no more than `page` names,
and only the first one is asked for. -/
def listedRefs (b : Bucket) (page : Nat) (targetBranch newCommitOid : Str) : RefsMap :=
  (((b.listObjects "refs/".toList).take page).foldl b.addLooseRef b.packedRefs).insert
    (branchRef targetBranch) (newCommitOid, none)

/-- What `format_info_refs` prints, in its order. -/
def infoRefs (b : Bucket) (page : Nat) (targetBranch newCommitOid : Str) : List (Str × Str × Option Str) :=
  sortBy (fun a b => compareStr a.1 b.1) ((b.listedRefs page targetBranch newCommitOid).entries.map fun e => (e.1, e.2))

def infoRefsContent (b : Bucket) (page : Nat) (targetBranch newCommitOid : Str) : Str :=
  formatInfoRefs ((b.listedRefs page targetBranch newCommitOid).entries.map fun e => (e.1, e.2))

/-- A value line, and a line with what the ref is peeled to. -/
def infoRefLines (e : Str × Str × Option Str) : Str :=
  e.2.1 ++ '\t' :: e.1 ++ ['\n'] ++
    match e.2.2 with
    | some peeled => peeled ++ '\t' :: e.1 ++ "^\x7b\x7d\n".toList
    | none => []

/-- With a listing that fits on one page this is what `update_server_info` writes. -/
theorem infoRefsContent_written (s : GcsGitStorage) (commitOid : Str) (branch : Option Str) {page : Nat}
    (hpage : (s.objects.listObjects "refs/".toList).length ≤ page) :
    ("info/refs".toList, asBytes (s.objects.infoRefsContent page (GcsGitStorage.targetBranch branch) commitOid)) ∈
      s.serverInfoWrites commitOid branch := by
  rw [infoRefsContent, listedRefs, List.take_of_length_le hpage]
  exact List.mem_cons_self

/-! ## What is to be listed -/

/-- The value of a loose ref, if it is valid. -/
def looseValue (b : Bucket) (name : Str) : Option Str :=
  if "refs/".toList.isPrefixOf name then b.lookupLooseRef name else none

def packedBlock (b : Bucket) (name : Str) : Option Block := lastBlock (blocks b.refLines).2 name

def wantedValue (b : Bucket) (targetBranch newCommitOid name : Str) : Option Str :=
  if name = branchRef targetBranch then some newCommitOid
  else (b.looseValue name).or ((b.packedBlock name).map Block.sha)

/-- The last line of the ref has the value `sha`, and the peeled value is directly after it. -/
def Recorded (b : Bucket) (name sha peeled : Str) : Prop :=
  ∃ before after, b.refLines = before ++ .ref sha name :: .peel peeled :: after ∧
    ∀ sha', .ref sha' name ∉ after

/-- One value for each ref, in order, and peeled values that belong to them. -/
structure ListsRefs (b : Bucket) (targetBranch newCommitOid : Str) (entries : List (Str × Str × Option Str)) :
    Prop where
  order : entries.Pairwise fun x y => compareStr x.1 y.1 = .lt
  values : ∀ name sha, (∃ peeled, (name, sha, peeled) ∈ entries) ↔
    b.wantedValue targetBranch newCommitOid name = some sha
  peels : ∀ name sha peeled, (name, sha, some peeled) ∈ entries → b.Recorded name sha peeled

/-! ## The scan of packed-refs -/

/-- One line, by what it is taken for. -/
def takeLine (acc : RefsMap × Option Str) : RefLine → RefsMap × Option Str
  | .skip => acc
  | .ref sha name => (acc.1.insert name (sha, none), some name)
  | .peel peeled =>
    match acc.2 with
    | some name =>
      match acc.1.lookup name with
      | some (sha, _) => (acc.1.insert name (sha, some peeled), acc.2)
      | none => acc
    | none => acc

theorem packedRefLine_eq (acc : RefsMap × Option Str) (line : Str) :
    packedRefLine acc line = takeLine acc (readRefLine line) := by
  unfold packedRefLine readRefLine
  generalize trim line = l
  split
  · rfl
  · rfl
  · show ite _ _ _ = takeLine acc (ite _ _ _)
    split <;> rfl
  · try simp only
    generalize splitWhitespace l = words
    rcases words with _ | ⟨sha, _ | ⟨name, _⟩⟩
    · rfl
    · rfl
    · show ite _ _ _ = takeLine acc (ite _ _ _)
      split <;> rfl

theorem packedRefs_eq (b : Bucket) : b.packedRefs = (b.refLines.foldl takeLine (∅, none)).1 := by
  unfold packedRefs refLines
  cases b.lookup "packed-refs".toList with
  | none => rfl
  | some bytes =>
    rw [List.foldl_map, show packedRefLine = _ from funext₂ packedRefLine_eq]

theorem takeLine_peel (acc : RefsMap × Option Str) (peeled name : Str) :
    (takeLine acc (.peel peeled)).1.lookup name =
      if acc.2 = some name then (acc.1.lookup name).map fun e => (e.1, some peeled) else acc.1.lookup name := by
  unfold takeLine
  cases hlast : acc.2 with
  | none => simp
  | some last =>
    cases hl : acc.1.lookup last with
    | none =>
      split_ifs with h
      · obtain rfl := Option.some.inj h
        simp only [hl, Option.map_none]
      · simp only [hl]
    | some e =>
      simp only [hl]
      split_ifs with h
      · obtain rfl := Option.some.inj h
        rw [AList.lookup_insert, hl, Option.map_some]
      · rw [AList.lookup_insert_ne]
        exact fun hname => h (congrArg some hname.symm)

theorem takeLine_peel_last (acc : RefsMap × Option Str) (peeled : Str) :
    (takeLine acc (.peel peeled)).2 = acc.2 := by
  unfold takeLine
  cases hlast : acc.2 with
  | none => simpa only using hlast
  | some last => cases hl : acc.1.lookup last <;> simp only [hl, hlast]

theorem lastPeel_cons (l : RefLine) (ls : List RefLine) : lastPeel (l :: ls) = (lastPeel ls).or l.peel? := by
  unfold lastPeel
  cases l <;> simp [RefLine.peel?, List.getLast?_cons, Option.or_some]

theorem lastBlock_cons (b : Block) (bs : List Block) (name : Str) :
    lastBlock (b :: bs) name = (lastBlock bs name).or (if b.name = name then some b else none) := by
  unfold lastBlock
  by_cases h : b.name = name <;> simp [h, List.getLast?_cons, Option.or_some]

theorem lastBlock_name {bs : List Block} {name : Str} {b : Block} (h : lastBlock bs name = some b) :
    b.name = name := by
  simpa using List.of_mem_filter (List.mem_of_getLast? h)

/-- What the lines of a ref leave in the map. -/
def Block.value (b : Block) : Str × Option Str := (b.sha, lastPeel b.following)

/-- The lines that follow peel the value that is there. -/
def peelValue (ls : List RefLine) (v : Option (Str × Option Str)) : Option (Str × Option Str) :=
  v.map fun e => (e.1, (lastPeel ls).or e.2)

theorem peelValue_nil (v : Option (Str × Option Str)) : peelValue [] v = v := by
  cases v <;> rfl

theorem peelValue_skip (ls : List RefLine) (v : Option (Str × Option Str)) :
    peelValue (.skip :: ls) v = peelValue ls v := by
  simp only [peelValue, lastPeel_cons, RefLine.peel?, Option.or_none]

theorem peelValue_peel (peeled : Str) (ls : List RefLine) (v : Option (Str × Option Str)) :
    peelValue ls (v.map fun e => (e.1, some peeled)) = peelValue (.peel peeled :: ls) v := by
  cases v with
  | none => rfl
  | some e => simp only [peelValue, lastPeel_cons, RefLine.peel?, Option.map_some, Option.or_assoc, Option.some_or]

/-- The last block of a name decides. Without one the lines only peel the ref that was the last one before. -/
theorem takeLines_lookup (ls : List RefLine) (acc : RefsMap × Option Str) (name : Str) :
    (ls.foldl takeLine acc).1.lookup name =
      ((lastBlock (blocks ls).2 name).map Block.value).or
        (if acc.2 = some name then peelValue (blocks ls).1 (acc.1.lookup name) else acc.1.lookup name) := by
  induction ls generalizing acc with
  | nil => simp [blocks, lastBlock, peelValue_nil]
  | cons l ls ih =>
    rw [List.foldl_cons, ih]
    cases l with
    | skip =>
      rw [show takeLine acc .skip = acc from rfl]
      simp only [blocks, peelValue_skip]
    | peel peeled =>
      simp only [takeLine_peel, takeLine_peel_last, blocks]
      split_ifs
      · rw [peelValue_peel]
      · rfl
    | ref sha refName =>
      simp only [takeLine, blocks, lastBlock_cons, Option.some.injEq, peelValue_nil, ite_self]
      by_cases h : refName = name
      · subst h
        rw [if_pos rfl, if_pos rfl, AList.lookup_insert]
        cases lastBlock (blocks ls).2 refName <;> simp [peelValue, Block.value]
      · rw [if_neg h, if_neg h, AList.lookup_insert_ne (Ne.symm h), Option.or_none]

theorem packedRefs_lookup (b : Bucket) (name : Str) :
    b.packedRefs.lookup name = (b.packedBlock name).map Block.value := by
  rw [packedRefs_eq, takeLines_lookup, packedBlock]
  simp

/-! ## Lines that stand directly after each other -/

theorem blocks_append_ref (before after : List RefLine) (sha name : Str) :
    blocks (before ++ .ref sha name :: after) =
      ((blocks before).1, (blocks before).2 ++ ⟨sha, name, (blocks after).1⟩ :: (blocks after).2) := by
  induction before with
  | nil => rfl
  | cons l before ih => cases l <;> simp only [List.cons_append, blocks, ih]

theorem lastBlock_none_iff (ls : List RefLine) (name : Str) :
    lastBlock (blocks ls).2 name = none ↔ ∀ sha, .ref sha name ∉ ls := by
  induction ls with
  | nil => simp [blocks, lastBlock]
  | cons l ls ih =>
    cases l with
    | skip => simp [blocks, ih]
    | peel => simp [blocks, ih]
    | ref sha' name' =>
      simp only [blocks, lastBlock_cons, Option.or_eq_none_iff, ih, List.mem_cons, RefLine.ref.injEq, not_or]
      by_cases h : name' = name
      · subst h
        simp only [if_true, reduceCtorEq, and_false, false_iff]
        exact fun hall => (hall sha').1 ⟨rfl, trivial⟩
      · simp [h, Ne.symm h]

theorem recorded_iff (b : Bucket) (name sha peeled : Str) :
    b.Recorded name sha peeled ↔ ∃ rest, b.packedBlock name = some ⟨sha, name, .peel peeled :: rest⟩ := by
  unfold Recorded packedBlock
  generalize b.refLines = ls
  constructor
  · rintro ⟨before, after, rfl, hafter⟩
    refine ⟨(blocks after).1, ?_⟩
    have hnone := (lastBlock_none_iff after name).mpr hafter
    simp only [blocks_append_ref, blocks]
    unfold lastBlock at hnone ⊢
    rw [List.filter_append, List.getLast?_append, List.filter_cons_of_pos (by simp), List.getLast?_cons, hnone]
    rfl
  · rintro ⟨rest, hlast⟩
    induction ls with
    | nil => simp [blocks, lastBlock] at hlast
    | cons l ls ih =>
      by_cases hlater : lastBlock (blocks ls).2 name = some ⟨sha, name, .peel peeled :: rest⟩
      · obtain ⟨before, after, rfl, hafter⟩ := ih hlater
        exact ⟨l :: before, after, rfl, hafter⟩
      · cases l with
        | skip => exact absurd hlast hlater
        | peel => exact absurd hlast hlater
        | ref sha' name' =>
          simp only [blocks, lastBlock_cons] at hlast
          cases hls : lastBlock (blocks ls).2 name with
          | some blk =>
            rw [hls] at hlast hlater
            exact absurd hlast hlater
          | none =>
            rw [hls, Option.none_or] at hlast
            split_ifs at hlast with hname
            simp only [Option.some.injEq, Block.mk.injEq] at hlast
            obtain ⟨rfl, rfl, hrest⟩ := hlast
            rw [lastBlock_none_iff] at hls
            cases ls with
            | nil => simp [blocks] at hrest
            | cons l' ls' =>
              cases l' with
              | skip => simp [blocks] at hrest
              | ref => simp [blocks] at hrest
              | peel q =>
                simp only [blocks, List.cons.injEq, RefLine.peel.injEq] at hrest
                obtain ⟨rfl, -⟩ := hrest
                exact ⟨[], ls', rfl, fun sha hmem => hls sha (List.mem_cons_of_mem _ hmem)⟩

/-! ## The loose refs -/

/-- A valid loose ref in place of the value, with what is peeled kept. -/
def overridden (b : Bucket) (name : Str) (v : Option (Str × Option Str)) : Option (Str × Option Str) :=
  match b.lookupLooseRef name with
  | some sha => some (sha, v.bind Prod.snd)
  | none => v

theorem overridden_twice (b : Bucket) (name : Str) (v : Option (Str × Option Str)) :
    b.overridden name (b.overridden name v) = b.overridden name v := by
  unfold overridden
  cases b.lookupLooseRef name <;> rfl

theorem addLooseRef_lookup (b : Bucket) (refs : RefsMap) (refName name : Str) :
    (b.addLooseRef refs refName).lookup name =
      if name = refName then b.overridden name (refs.lookup name) else refs.lookup name := by
  unfold addLooseRef overridden
  by_cases h : name = refName
  · subst h
    rw [if_pos rfl]
    cases b.lookupLooseRef name <;> simp only [AList.lookup_insert]
  · rw [if_neg h]
    cases b.lookupLooseRef refName <;> simp only [AList.lookup_insert_ne h]

theorem addLooseRefs_lookup (b : Bucket) (names : List Str) (refs : RefsMap) (name : Str) :
    (names.foldl b.addLooseRef refs).lookup name =
      if name ∈ names then b.overridden name (refs.lookup name) else refs.lookup name := by
  induction names generalizing refs with
  | nil => simp
  | cons n names ih =>
    rw [List.foldl_cons, ih, addLooseRef_lookup]
    by_cases hn : name = n
    · subst hn
      simp only [if_true, List.mem_cons_self, overridden_twice, ite_self]
    · simp only [hn, if_false, List.mem_cons, false_or]

/-! ## What is listed -/

theorem mem_listObjects (b : Bucket) (namePrefix name : Str) :
    name ∈ b.listObjects namePrefix ↔ name ∈ b.keys ∧ namePrefix.isPrefixOf name = true := by
  rw [listObjects, (sortBy_perm _ _).mem_iff, List.mem_filter]

theorem lookupLooseRef_of_not_mem {b : Bucket} {name : Str} (h : name ∉ b.keys) : b.lookupLooseRef name = none := by
  unfold lookupLooseRef
  rw [AList.lookup_eq_none.mpr (mt AList.mem_keys.mp h)]

theorem looseValue_of_mem {b : Bucket} {name : Str} (h : name ∈ b.listObjects "refs/".toList) :
    b.looseValue name = b.lookupLooseRef name := by
  rw [looseValue, if_pos ((mem_listObjects _ _ _).mp h).2]

theorem looseValue_of_not_mem {b : Bucket} {name : Str} (h : name ∉ b.listObjects "refs/".toList) :
    b.looseValue name = none := by
  rw [looseValue]
  split_ifs with hprefix
  · exact lookupLooseRef_of_not_mem fun hkey => h ((mem_listObjects _ _ _).mpr ⟨hkey, hprefix⟩)
  · rfl

/-- What is peeled comes from packed-refs. -/
def packedPeel (b : Bucket) (name : Str) : Option Str :=
  (b.packedBlock name).bind fun blk => lastPeel blk.following

theorem listedRefs_target (b : Bucket) (page : Nat) (targetBranch newCommitOid : Str) :
    (b.listedRefs page targetBranch newCommitOid).lookup (branchRef targetBranch) = some (newCommitOid, none) := by
  rw [listedRefs, AList.lookup_insert]

theorem listedRefs_lookup (b : Bucket) (page : Nat) {targetBranch name : Str} (newCommitOid : Str)
    (hname : name ≠ branchRef targetBranch) :
    (b.listedRefs page targetBranch newCommitOid).lookup name =
      ((if name ∈ (b.listObjects "refs/".toList).take page then b.lookupLooseRef name else none).or
        ((b.packedBlock name).map Block.sha)).map fun sha => (sha, b.packedPeel name) := by
  rw [listedRefs, AList.lookup_insert_ne hname, addLooseRefs_lookup, packedRefs_lookup, overridden, packedPeel]
  cases b.packedBlock name <;> cases b.lookupLooseRef name <;> split_ifs <;> rfl

theorem mem_infoRefs (b : Bucket) (page : Nat) (targetBranch newCommitOid name sha : Str) (peeled : Option Str) :
    (name, sha, peeled) ∈ b.infoRefs page targetBranch newCommitOid ↔
      (b.listedRefs page targetBranch newCommitOid).lookup name = some (sha, peeled) := by
  rw [infoRefs, (sortBy_perm _ _).mem_iff]
  exact Tally.mem_pairs

theorem infoRefs_order (b : Bucket) (page : Nat) (targetBranch newCommitOid : Str) :
    (b.infoRefs page targetBranch newCommitOid).Pairwise fun x y => compareStr x.1 y.1 = .lt := by
  refine sortBy_strict (fun e : Str × Str × Option Str => asBytes e.1) ?_
  have hkeys := (Tally.pairs_keys_nodup (b.listedRefs page targetBranch newCommitOid)).map fun _ _ => asBytes_injective
  rw [List.map_map] at hkeys
  exact hkeys

/-! ## When each ref is listed with its own -/

/-- The condition on the names that the listing cuts off, and on the lines that follow a ref. -/
structure Plain (b : Bucket) (page : Nat) (targetBranch : Str) : Prop where
  /-- A loose ref that is cut off has the value it has in packed-refs. -/
  cutOff : ∀ name ∈ (b.listObjects "refs/".toList).drop page, name ≠ branchRef targetBranch →
    ∀ sha, b.lookupLooseRef name = some sha → (b.packedBlock name).map Block.sha = some sha
  /-- The last value that a ref is peeled to stands directly after the ref. -/
  following : ∀ name blk peeled, name ≠ branchRef targetBranch → b.packedBlock name = some blk →
    lastPeel blk.following = some peeled → blk.following.head? = some (.peel peeled)
  /-- A peeled ref is not loose with another value. -/
  unmoved : ∀ name blk sha, name ≠ branchRef targetBranch → b.packedBlock name = some blk →
    lastPeel blk.following ≠ none → b.looseValue name = some sha → sha = blk.sha

theorem listsRefs_of_plain {b : Bucket} {page : Nat} {targetBranch : Str} (newCommitOid : Str)
    (h : b.Plain page targetBranch) :
    b.ListsRefs targetBranch newCommitOid (b.infoRefs page targetBranch newCommitOid) where
  order := b.infoRefs_order page targetBranch newCommitOid
  values := by
    intro name sha
    simp only [mem_infoRefs, wantedValue]
    by_cases hname : name = branchRef targetBranch
    · subst hname
      simp only [listedRefs_target, Option.some.injEq, Prod.mk.injEq, if_true]
      exact ⟨fun ⟨_, hsha, _⟩ => hsha, fun hsha => ⟨none, hsha, rfl⟩⟩
    · rw [if_neg hname]
      have hvalue : (if name ∈ (b.listObjects "refs/".toList).take page then b.lookupLooseRef name else none).or
          ((b.packedBlock name).map Block.sha) = (b.looseValue name).or ((b.packedBlock name).map Block.sha) := by
        by_cases htake : name ∈ (b.listObjects "refs/".toList).take page
        · rw [if_pos htake, looseValue_of_mem (List.mem_of_mem_take htake)]
        · rw [if_neg htake, Option.none_or]
          by_cases hdrop : name ∈ (b.listObjects "refs/".toList).drop page
          · rw [looseValue_of_mem (List.mem_of_mem_drop hdrop)]
            cases hloose : b.lookupLooseRef name with
            | none => rfl
            | some loose => rw [h.cutOff name hdrop hname loose hloose, Option.some_or]
          · rw [looseValue_of_not_mem, Option.none_or]
            rw [← List.take_append_drop page (b.listObjects _), List.mem_append]
            exact fun hmem => hmem.elim htake hdrop
      simp only [listedRefs_lookup b page newCommitOid hname, hvalue]
      cases (b.looseValue name).or ((b.packedBlock name).map Block.sha) <;> simp
  peels := by
    intro name sha peeled hmem
    rw [mem_infoRefs] at hmem
    have hname : name ≠ branchRef targetBranch := by
      rintro rfl
      simp [listedRefs_target] at hmem
    rw [listedRefs_lookup b page newCommitOid hname, Option.map_eq_some_iff] at hmem
    obtain ⟨sha', hsha, heq⟩ := hmem
    obtain ⟨rfl, hpeel⟩ := Prod.mk.inj heq
    obtain ⟨blk, hblk, hlast⟩ := Option.bind_eq_some_iff.mp hpeel
    have hsha : sha' = blk.sha := by
      rw [hblk, Option.map_some] at hsha
      split_ifs at hsha with htake
      · cases hloose : b.lookupLooseRef name with
        | none => rw [hloose] at hsha; exact (Option.some.inj hsha).symm
        | some loose =>
          rw [hloose] at hsha
          obtain rfl := Option.some.inj hsha
          refine h.unmoved name blk loose hname hblk (by simp [hlast]) ?_
          rw [looseValue_of_mem (List.mem_of_mem_take htake), hloose]
      · exact (Option.some.inj hsha).symm
    have hfollowing := h.following name blk peeled hname hblk hlast
    obtain ⟨rest, hrest⟩ := List.head?_eq_some_iff.mp hfollowing
    rw [recorded_iff]
    refine ⟨rest, hblk.trans ?_⟩
    rw [hsha, ← hrest, ← lastBlock_name hblk]

theorem plain_of_listsRefs {b : Bucket} {page : Nat} {targetBranch newCommitOid : Str}
    (h : b.ListsRefs targetBranch newCommitOid (b.infoRefs page targetBranch newCommitOid)) :
    b.Plain page targetBranch := by
  have hpeel {name : Str} {blk : Block} {peeled : Str} (hname : name ≠ branchRef targetBranch)
      (hblk : b.packedBlock name = some blk) (hlast : lastPeel blk.following = some peeled) :
      ∃ sha rest, b.wantedValue targetBranch newCommitOid name = some sha ∧
        blk = ⟨sha, name, .peel peeled :: rest⟩ := by
    have hlookup := listedRefs_lookup b page newCommitOid hname
    rw [packedPeel, hblk, Option.bind_some, hlast, Option.map_some] at hlookup
    obtain ⟨sha, hsha⟩ : ∃ sha,
        (if name ∈ (b.listObjects "refs/".toList).take page then b.lookupLooseRef name else none).or
          (some blk.sha) = some sha := Option.isSome_iff_exists.mp (by simp)
    rw [hsha, Option.map_some, ← mem_infoRefs] at hlookup
    obtain ⟨rest, hrest⟩ := (recorded_iff _ _ _ _).mp (h.peels name sha peeled hlookup)
    exact ⟨sha, rest, (h.values name sha).mp ⟨_, hlookup⟩, Option.some.inj (hblk.symm.trans hrest)⟩
  constructor
  · intro name hdrop hname sha hloose
    have hmem := List.mem_of_mem_drop hdrop
    have hwanted : b.wantedValue targetBranch newCommitOid name = some sha := by
      rw [wantedValue, if_neg hname, looseValue_of_mem hmem, hloose, Option.some_or]
    obtain ⟨peeled, hlisted⟩ := (h.values name sha).mpr hwanted
    rw [mem_infoRefs, listedRefs_lookup b page newCommitOid hname, if_neg, Option.none_or,
      Option.map_eq_some_iff] at hlisted
    · obtain ⟨sha', hsha', heq⟩ := hlisted
      rw [hsha', (Prod.mk.inj heq).1]
    · have hnodup : (b.listObjects "refs/".toList).Nodup :=
        (sortBy_perm _ _).nodup_iff.mpr (b.keys_nodup.filter _)
      rw [← List.take_append_drop page (b.listObjects _), List.nodup_append] at hnodup
      exact fun htake => hnodup.2.2 name htake name hdrop rfl
  · intro name blk peeled hname hblk hlast
    obtain ⟨sha, rest, -, rfl⟩ := hpeel hname hblk hlast
    rfl
  · intro name blk sha hname hblk hlast hloose
    obtain ⟨peeled, hlast⟩ := Option.ne_none_iff_exists'.mp hlast
    obtain ⟨sha', rest, hwanted, rfl⟩ := hpeel hname hblk hlast
    rw [wantedValue, if_neg hname, hloose, Option.some_or] at hwanted
    exact Option.some.inj hwanted

/-- The text is printed from the entries, and they are as they should be exactly under the condition. -/
theorem info_refs_lists_refs_iff (b : Bucket) (page : Nat) (targetBranch newCommitOid : Str) :
    b.infoRefsContent page targetBranch newCommitOid =
      (b.infoRefs page targetBranch newCommitOid).flatMap infoRefLines ∧
    (b.ListsRefs targetBranch newCommitOid (b.infoRefs page targetBranch newCommitOid) ↔ b.Plain page targetBranch) :=
  ⟨rfl, plain_of_listsRefs, listsRefs_of_plain newCommitOid⟩

/-- A tag that packed-refs has with its peeled value, and that was moved since then. -/
def movedTag : Bucket :=
  ((∅ : Bucket).writeRapidObject "packed-refs".toList
    (asBytes (List.replicate 40 'a' ++ " refs/tags/v1\n^".toList ++ List.replicate 40 'b' ++ ['\n']))).writeRapidObject
    "refs/tags/v1".toList (asBytes (List.replicate 40 'c' ++ ['\n']))

/-- The moved tag is printed with the commit that the old one was peeled to. -/
theorem info_refs_peels_moved_tag :
    ¬ movedTag.ListsRefs "master".toList (List.replicate 40 'd')
      (movedTag.infoRefs 1000 "master".toList (List.replicate 40 'd')) := by
  intro h
  have hmem : ("refs/tags/v1".toList, List.replicate 40 'c', some (List.replicate 40 'b')) ∈
      movedTag.infoRefs 1000 "master".toList (List.replicate 40 'd') := by
    decide +kernel
  obtain ⟨rest, hrest⟩ := (recorded_iff _ _ _ _).mp (h.peels _ _ _ hmem)
  have hsha : (movedTag.packedBlock "refs/tags/v1".toList).map Block.sha = some (List.replicate 40 'a') := by
    decide +kernel
  rw [hrest, Option.map_some, Option.some.injEq] at hsha
  exact absurd (show List.replicate 40 'c' = List.replicate 40 'a' from hsha) (by decide)

end GitNfs.Bucket
