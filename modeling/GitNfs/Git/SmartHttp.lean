import GitNfs.Git.PktLines
import GitNfs.Git.Refs
import Mathlib.Data.List.Perm.Basic

/-! # The head of a repository, over HTTP and in a bucket

The same refs stand in the answer to `ls-refs`, in any order, and in a bucket, loose or packed. Both back ends
look for the commit that is to be browsed in them.
-/

namespace GitNfs

/-! ## Over HTTP -/

namespace GitSmartHttpClient

inductive HeadError where
  | pkt (e : PktError)
  | noHead
  deriving DecidableEq, Repr

/-- What the lines that were read so far have. -/
structure RefScan where
  headOid : Option Str
  branchOid : Option Str
  targetBranch : Str
  deriving DecidableEq, Repr

def mainRef : Str := "refs/heads/main".toList

def masterRef : Str := "refs/heads/master".toList

/-- The branch that a ref is taken for. -/
def matchRef (branchOverride : Option Str) (refname : Str) : Option Str :=
  match branchOverride with
  | some target => if refname = Bucket.branchRef target then some target else none
  | none =>
    if refname = masterRef ∨ refname = mainRef then
      some (if "main".toList.isSuffixOf refname then "main".toList else "master".toList)
    else none

def scanRef (branchOverride : Option Str) (scan : RefScan) (oid refname : Str) : RefScan :=
  let scan := if refname = "HEAD".toList then { scan with headOid := some oid } else scan
  match matchRef branchOverride refname with
  | some target => { scan with branchOid := some oid, targetBranch := target }
  | none => scan

def scanLine (branchOverride : Option Str) (scan : RefScan) (line : Str) : RefScan :=
  match splitWhitespace line with
  | oid :: refname :: _ => scanRef branchOverride scan oid refname
  | _ => scan

/-- The commit of a response to `ls-refs`, and the branch. -/
def resolveHead (response : Bytes) (branchOverride : Option Str) : Option (Outcome HeadError (Str × Str)) :=
  match parsePktLines response with
  | none => none
  | some .panics => some .panics
  | some (.err e) => some (.err (.pkt e))
  | some (.ok lines) =>
    let scan := lines.foldl (scanLine branchOverride) ⟨none, none, branchOverride.getD "master".toList⟩
    match scan.branchOid.or scan.headOid with
    | some chosen => some (.ok (chosen, scan.targetBranch))
    | none => some (.err .noHead)

/-- The commit, if there is no error. -/
def commitOf : Option (Outcome HeadError (Str × Str)) → Option Str
  | some (.ok r) => some r.1
  | _ => none

end GitSmartHttpClient

/-! ## The refs of a repository -/

/-- A name has no white space. -/
def IsRefName (name : Str) : Prop := name ≠ [] ∧ ∀ c ∈ name, isWhitespace c = false

/-- Branches with their commits, and the one that HEAD names. -/
structure RefState where
  branches : List (Str × Str)
  head : Str

namespace RefState

def commit (s : RefState) (branch : Str) : Option Str := s.branches.lookup branch

/-- What the override asks for. -/
def wanted (s : RefState) (branchOverride : Option Str) : Option Str := s.commit (branchOverride.getD s.head)

structure Valid (s : RefState) : Prop where
  nodup : (s.branches.map Prod.fst).Nodup
  names : ∀ r ∈ s.branches, IsRefName r.1
  oids : ∀ r ∈ s.branches, IsOid r.2
  head : (s.commit s.head).isSome

/-! ### Advertised -/

/-- HEAD and the branches, each with its commit. -/
def refs (s : RefState) : List (Str × Str) :=
  ((s.commit s.head).toList.map fun oid => ("HEAD".toList, oid)) ++
    s.branches.map fun r => (Bucket.branchRef r.1, r.2)

def refItem (r : Str × Str) : PktItem := .line (r.2 ++ ' ' :: r.1)

def advertisement (adv : List (Str × Str)) : Bytes := (adv.map refItem ++ [PktItem.flush]).flatMap PktItem.bytes

/-- A server lists the refs in some order, in packets. -/
structure Advertised (s : RefState) (adv : List (Str × Str)) : Prop where
  perm : adv.Perm s.refs
  fits : ∀ r ∈ adv, (asBytes (r.2 ++ ' ' :: r.1)).length ≤ 65530

end RefState

/-! ### In a bucket -/

/-- A line of packed-refs. -/
inductive PackedLine where
  | comment (text : Str)
  | ref (name oid : Str)
  | peeled (oid : Str)

namespace PackedLine

def text : PackedLine → Str
  | comment text => '#' :: text
  | ref name oid => oid ++ ' ' :: name
  | peeled oid => '^' :: oid

def ref? : PackedLine → Option (Str × Str)
  | ref name oid => some (name, oid)
  | _ => none

def Valid : PackedLine → Prop
  | comment text => '\n' ∉ text ∧ text.getLast? ≠ some '\r'
  | ref name oid => IsRefName name ∧ IsOid oid
  | peeled oid => IsOid oid

def file (ls : List PackedLine) : Bytes := asBytes (ls.flatMap fun l => l.text ++ ['\n'])

end PackedLine

/-- A branch has an object of its own or a line of packed-refs, and the object counts where there are both. -/
structure RefState.Stored (s : RefState) (b : Bucket) (packed : List PackedLine) : Prop where
  head : b.lookup "HEAD".toList = some (asBytes ("ref: refs/heads/".toList ++ s.head ++ ['\n']))
  file : b.lookup "packed-refs".toList = some (PackedLine.file packed) ∨
    b.lookup "packed-refs".toList = none ∧ packed = []
  lines : ∀ l ∈ packed, l.Valid
  once : ((packed.filterMap PackedLine.ref?).map Prod.fst).Nodup
  loose : ∀ branch data, b.lookup (Bucket.branchRef branch) = some data →
    ∃ oid, s.commit branch = some oid ∧ data = asBytes (oid ++ ['\n'])
  packed : ∀ branch oid, b.lookup (Bucket.branchRef branch) = none →
    (s.commit branch = some oid ↔ .ref (Bucket.branchRef branch) oid ∈ packed)

/-! ## Words -/

theorem splitWhitespace_two {a b : Str} (ha : IsRefName a) (hb : IsRefName b) :
    splitWhitespace (a ++ ' ' :: b) = [a, b] := by
  unfold splitWhitespace
  rw [List.splitOnP_append_cons_of_forall_mem ha.2 ' ' (by decide) b, List.splitOnP_eq_singleton hb.2]
  simp [ha.1, hb.1]

theorem IsOid.isRefName {oid : Str} (h : IsOid oid) : IsRefName oid := ⟨h.ne_nil, h.not_whitespace⟩

theorem not_whitespace_of_all {s : Str} (h : s.all (!isWhitespace ·) = true) : ∀ c ∈ s, isWhitespace c = false :=
  fun c hc => by simpa using List.all_eq_true.mp h c hc

theorem isRefName_head : IsRefName "HEAD".toList := ⟨by decide, not_whitespace_of_all (by decide)⟩

theorem IsRefName.branchRef {branch : Str} (h : IsRefName branch) : IsRefName (Bucket.branchRef branch) := by
  rw [branchRef_eq]
  refine ⟨by simp, fun c hc => ?_⟩
  rcases List.mem_append.mp hc with hc | hc
  · exact not_whitespace_of_all (by decide) c hc
  · exact h.2 c hc

theorem branchRef_inj {a b : Str} : Bucket.branchRef a = Bucket.branchRef b ↔ a = b := by
  refine ⟨fun h => ?_, fun h => by rw [h]⟩
  unfold Bucket.branchRef at h
  exact List.append_cancel_left h

namespace RefState

variable {s : RefState}

theorem commit_eq_some_iff (h : s.Valid) {branch oid : Str} : s.commit branch = some oid ↔ (branch, oid) ∈ s.branches := by
  unfold commit
  rw [List.lookup_eq_some_iff]
  constructor
  · rintro ⟨l₁, l₂, heq, -⟩
    rw [heq]
    simp
  · intro hmem
    obtain ⟨l₁, l₂, heq⟩ := List.append_of_mem hmem
    refine ⟨l₁, l₂, heq, fun r hr => ?_⟩
    have hnodup := h.nodup
    rw [heq, List.map_append, List.map_cons] at hnodup
    have hne := (List.nodup_append.mp hnodup).2.2 r.1 (List.mem_map_of_mem hr) branch List.mem_cons_self
    simpa using hne.symm

/-! ## The scan of an advertisement -/

theorem mem_refs (h : s.Valid) {r : Str × Str} :
    r ∈ s.refs ↔ (r.1 = "HEAD".toList ∧ s.commit s.head = some r.2) ∨
      ∃ branch, r.1 = Bucket.branchRef branch ∧ s.commit branch = some r.2 := by
  unfold refs
  rw [List.mem_append, List.mem_map, List.mem_map]
  refine or_congr ?_ ?_
  · constructor
    · rintro ⟨oid, hoid, rfl⟩
      exact ⟨rfl, Option.mem_toList.mp hoid⟩
    · rintro ⟨hname, hoid⟩
      exact ⟨r.2, Option.mem_toList.mpr hoid, Prod.ext hname.symm rfl⟩
  · constructor
    · rintro ⟨b, hb, rfl⟩
      exact ⟨b.1, rfl, (commit_eq_some_iff h).mpr hb⟩
    · rintro ⟨branch, hname, hoid⟩
      exact ⟨(branch, r.2), (commit_eq_some_iff h).mp hoid, Prod.ext hname.symm rfl⟩

/-- The refs of an advertisement are words. -/
theorem Advertised.words {adv : List (Str × Str)} (hs : s.Valid) (hadv : s.Advertised adv) {r : Str × Str}
    (hr : r ∈ adv) : IsRefName r.1 ∧ IsRefName r.2 := by
  have hoid : ∀ branch oid, s.commit branch = some oid → IsRefName oid := by
    intro branch oid h
    exact (hs.oids _ ((commit_eq_some_iff hs).mp h)).isRefName
  rcases (mem_refs hs).mp (hadv.perm.mem_iff.mp hr) with ⟨hname, h⟩ | ⟨branch, hname, h⟩
  · exact ⟨hname ▸ isRefName_head, hoid _ _ h⟩
  · exact ⟨hname ▸ (hs.names _ ((commit_eq_some_iff hs).mp h)).branchRef, hoid _ _ h⟩

end RefState

namespace GitSmartHttpClient

open RefState (refItem advertisement)

/-- The last ref that matches. -/
def lastMatch (p : Str → Bool) (adv : List (Str × Str)) : Option Str :=
  ((adv.filter fun r => p r.1).getLast?).map Prod.snd

theorem lastMatch_concat (p : Str → Bool) (adv : List (Str × Str)) (r : Str × Str) :
    lastMatch p (adv ++ [r]) = if p r.1 then some r.2 else lastMatch p adv := by
  unfold lastMatch
  rw [List.filter_append]
  cases hp : p r.1 <;> simp [hp]

theorem foldl_scanRef (branchOverride : Option Str) (adv : List (Str × Str)) (target : Str) :
    let scan := adv.foldl (fun scan r => scanRef branchOverride scan r.2 r.1) ⟨none, none, target⟩
    scan.branchOid = lastMatch (fun name => (matchRef branchOverride name).isSome) adv ∧
      scan.headOid = lastMatch (fun name => name = "HEAD".toList) adv := by
  induction adv using List.reverseRecOn with
  | nil => exact ⟨rfl, rfl⟩
  | append_singleton adv r ih =>
    obtain ⟨hbranch, hhead⟩ := ih
    simp only [List.foldl_append, List.foldl_cons, List.foldl_nil, lastMatch_concat] at *
    rw [← hbranch, ← hhead]
    unfold scanRef
    cases matchRef branchOverride r.1 <;> split_ifs <;> simp_all

/-- All that a response says about a commit is which refs match last. -/
theorem commitOf_resolveHead {s : RefState} {adv : List (Str × Str)} (hs : s.Valid) (hadv : s.Advertised adv)
    (branchOverride : Option Str) :
    commitOf (resolveHead (advertisement adv) branchOverride) =
      (lastMatch (fun name => (matchRef branchOverride name).isSome) adv).or
        (lastMatch (fun name => name = "HEAD".toList) adv) := by
  have hfits : ∀ item ∈ adv.map refItem ++ [PktItem.flush], item.Fits := by
    intro item hitem
    rcases List.mem_append.mp hitem with hitem | hitem
    · obtain ⟨r, hr, rfl⟩ := List.mem_map.mp hitem
      obtain ⟨hname, -⟩ := hadv.words hs hr
      refine ⟨?_, hadv.fits r hr⟩
      obtain ⟨c, hc⟩ := List.getLast?_isSome.mpr hname.1 |> Option.isSome_iff_exists.mp
      have hblank := hname.2 c (List.mem_of_getLast? hc)
      rw [List.getLast?_append, List.getLast?_cons, hc]
      rintro ⟨⟩
      exact absurd hblank (by decide)
    · obtain rfl := List.mem_singleton.mp hitem
      trivial
  have hlines : (adv.map refItem ++ [PktItem.flush]).filterMap PktItem.text? = adv.map fun r => r.2 ++ ' ' :: r.1 := by
    have hsome : (PktItem.text? ∘ refItem) = fun r : Str × Str => some (r.2 ++ ' ' :: r.1) := rfl
    rw [List.filterMap_append, List.filterMap_map, hsome, ← Function.comp_def some, List.filterMap_eq_map]
    simp [PktItem.text?]
  have hscan : ∀ scan, (adv.map fun r => r.2 ++ ' ' :: r.1).foldl (scanLine branchOverride) scan =
      adv.foldl (fun scan r => scanRef branchOverride scan r.2 r.1) scan := by
    intro scan
    rw [List.foldl_map]
    refine List.foldl_ext _ _ _ fun scan r hr => ?_
    obtain ⟨hname, hoid⟩ := hadv.words hs hr
    unfold scanLine
    rw [splitWhitespace_two hoid hname]
  obtain ⟨hbranch, hhead⟩ := foldl_scanRef branchOverride adv (branchOverride.getD "master".toList)
  unfold resolveHead advertisement
  rw [parsePktLines_items hfits, hlines]
  simp only [hscan, hbranch, hhead]
  cases (lastMatch (fun name => (matchRef branchOverride name).isSome) adv).or
    (lastMatch (fun name => name = "HEAD".toList) adv) <;> rfl

/-- Where all that matches has one value, the last that matches has it. -/
theorem lastMatch_eq {p : Str → Bool} {adv : List (Str × Str)} {r : Str × Str} (hr : r ∈ adv) (hp : p r.1 = true)
    (hall : ∀ r' ∈ adv, p r'.1 = true → r'.2 = r.2) : lastMatch p adv = some r.2 := by
  unfold lastMatch
  have hne : adv.filter (fun r => p r.1) ≠ [] := List.ne_nil_of_mem (List.mem_filter.mpr ⟨hr, hp⟩)
  obtain ⟨last, hlast⟩ := Option.isSome_iff_exists.mp (List.getLast?_isSome.mpr hne)
  obtain ⟨hin, hmatch⟩ := List.mem_filter.mp (List.mem_of_getLast? hlast)
  rw [hlast, Option.map_some, hall last hin hmatch]

theorem lastMatch_eq_none {p : Str → Bool} {adv : List (Str × Str)} (h : ∀ r ∈ adv, p r.1 = false) :
    lastMatch p adv = none := by
  unfold lastMatch
  rw [List.filter_eq_nil_iff.mpr fun r hr => by simp [h r hr]]
  rfl

theorem lastMatch_head {s : RefState} {adv : List (Str × Str)} (hs : s.Valid) (hadv : s.Advertised adv) :
    lastMatch (fun name => name = "HEAD".toList) adv = s.commit s.head := by
  obtain ⟨oid, hoid⟩ := Option.isSome_iff_exists.mp hs.head
  have hmem : ("HEAD".toList, oid) ∈ adv := by
    rw [hadv.perm.mem_iff]
    exact (RefState.mem_refs hs).mpr (.inl ⟨rfl, hoid⟩)
  rw [hoid]
  refine lastMatch_eq hmem (by simp) fun r hr hp => ?_
  rcases (RefState.mem_refs hs).mp (hadv.perm.mem_iff.mp hr) with ⟨-, h⟩ | ⟨branch, hname, -⟩
  · exact Option.some.inj (h.symm.trans hoid)
  · exact absurd ((of_decide_eq_true hp).symm.trans hname) (head_ne_branchRef branch)

/-- An override matches the ref of its branch only. -/
theorem lastMatch_override {s : RefState} {adv : List (Str × Str)} (hs : s.Valid) (hadv : s.Advertised adv)
    (branch : Str) : lastMatch (fun name => (matchRef (some branch) name).isSome) adv = s.commit branch := by
  have hmatch : ∀ name, (matchRef (some branch) name).isSome = true ↔ name = Bucket.branchRef branch := by
    intro name
    unfold matchRef
    simp only
    split_ifs with h <;> simp [h]
  have hvalue : ∀ r ∈ adv, r.1 = Bucket.branchRef branch → s.commit branch = some r.2 := by
    intro r hr hname
    rcases (RefState.mem_refs hs).mp (hadv.perm.mem_iff.mp hr) with ⟨hhead, -⟩ | ⟨other, hother, h⟩
    · exact absurd (hhead.symm.trans hname) (head_ne_branchRef branch)
    · rw [branchRef_inj.mp (hname.symm.trans hother)]
      exact h
  cases hoid : s.commit branch with
  | none =>
    refine lastMatch_eq_none fun r hr => ?_
    rw [Bool.eq_false_iff, ne_eq, hmatch]
    intro hname
    have := hvalue r hr hname
    simp [hoid] at this
  | some oid =>
    have hmem : (Bucket.branchRef branch, oid) ∈ adv := by
      rw [hadv.perm.mem_iff]
      exact (RefState.mem_refs hs).mpr (.inr ⟨branch, rfl, hoid⟩)
    refine lastMatch_eq hmem ((hmatch _).mpr rfl) fun r hr hp => ?_
    exact Option.some.inj ((hvalue r hr ((hmatch r.1).mp hp)).symm.trans hoid)

end GitSmartHttpClient

/-! ## The lookup in a bucket -/

namespace PackedLine

theorem IsOid_head {oid : Str} (h : IsOid oid) : ∃ c cs, oid = c :: cs ∧ c ≠ '#' ∧ c ≠ '^' := by
  obtain ⟨bytes, hlen, rfl⟩ := h
  obtain ⟨c, cs, hcs⟩ := List.exists_cons_of_ne_nil (IsOid.ne_nil ⟨bytes, hlen, rfl⟩)
  obtain ⟨n, hn, rfl⟩ := hexEncode_mem bytes c (hcs ▸ List.mem_cons_self)
  have hdigit : ∀ n < 16, hexDigit n ≠ '#' ∧ hexDigit n ≠ '^' := by decide
  exact ⟨_, cs, hcs, hdigit n hn⟩

theorem trim_ref {name oid : Str} (hname : IsRefName name) (hoid : IsOid oid) :
    trim (oid ++ ' ' :: name) = oid ++ ' ' :: name := by
  obtain ⟨c, cs, hcs, -⟩ := IsOid_head hoid
  obtain ⟨d, hd⟩ := Option.isSome_iff_exists.mp (List.getLast?_isSome.mpr hname.1)
  have hkept := trim_append (oid ++ ' ' :: name) [] (x := c) (y := d) (by rw [hcs]; rfl)
    (hoid.not_whitespace c (hcs ▸ List.mem_cons_self))
    (by rw [List.getLast?_append, List.getLast?_cons, hd]; rfl) (hname.2 d (List.mem_of_getLast? hd))
  simpa using hkept

/-- What `lookup_packed_ref` makes of one line. -/
def value (refName line : Str) : Option Str :=
  match trim line with
  | '#' :: _ => none
  | '^' :: _ => none
  | line =>
    match splitWhitespace line with
    | sha :: name :: _ => if name = refName then some sha else none
    | _ => none

theorem value_text {l : PackedLine} (h : l.Valid) (refName : Str) :
    value refName l.text = l.ref?.bind fun r => if r.1 = refName then some r.2 else none := by
  unfold value
  cases l with
  | comment text =>
    have htrim : trim ('#' :: text) = '#' :: text.rdropWhile isWhitespace :=
      trim_append ['#'] text (x := '#') (y := '#') rfl (by decide) rfl (by decide)
    simp only [PackedLine.text, htrim]
    rfl
  | peeled oid =>
    have htrim : trim ('^' :: oid) = '^' :: oid := by
      refine trim_eq_self _ fun c hc => ?_
      rcases List.mem_cons.mp hc with rfl | hc
      · decide
      · exact IsOid.not_whitespace h c hc
    simp only [PackedLine.text, htrim]
    rfl
  | ref name oid =>
    obtain ⟨hname, hoid⟩ := h
    obtain ⟨c, cs, hcs, hhash, hcaret⟩ := IsOid_head hoid
    have htwo := splitWhitespace_two hoid.isRefName hname
    simp only [PackedLine.text, trim_ref hname hoid]
    split
    · rename_i heq
      rw [hcs, List.cons_append, List.cons.injEq] at heq
      exact absurd heq.1 hhash
    · rename_i heq
      rw [hcs, List.cons_append, List.cons.injEq] at heq
      exact absurd heq.1 hcaret
    · rw [htwo]
      rfl

theorem text_newline {l : PackedLine} (h : l.Valid) : '\n' ∉ l.text ∧ l.text.getLast? ≠ some '\r' := by
  have hword : ∀ s : Str, IsRefName s → '\n' ∉ s ∧ s.getLast? ≠ some '\r' := by
    intro s hs
    refine ⟨fun hc => ?_, fun hlast => ?_⟩
    · exact absurd (hs.2 _ hc) (by decide)
    · exact absurd (hs.2 _ (List.mem_of_getLast? hlast)) (by decide)
  have hlast : ∀ (l m : Str), m ≠ [] → (l ++ m).getLast? = m.getLast? := by
    intro l m hm
    obtain ⟨c, hc⟩ := Option.isSome_iff_exists.mp (List.getLast?_isSome.mpr hm)
    rw [List.getLast?_append, hc]
    rfl
  cases l with
  | comment text =>
    refine ⟨by simpa [PackedLine.text] using h.1, ?_⟩
    cases text with
    | nil => decide
    | cons c cs =>
      rw [show (PackedLine.comment (c :: cs)).text = ['#'] ++ (c :: cs) from rfl, hlast _ _ (by simp)]
      exact h.2
  | peeled oid =>
    obtain ⟨hnewline, hcr⟩ := hword oid (IsOid.isRefName h)
    refine ⟨by simpa [PackedLine.text] using hnewline, ?_⟩
    rw [show (PackedLine.peeled oid).text = ['^'] ++ oid from rfl, hlast _ _ (IsOid.ne_nil h)]
    exact hcr
  | ref name oid =>
    obtain ⟨hnewline, hcr⟩ := hword name h.1
    obtain ⟨hnewline', -⟩ := hword oid h.2.isRefName
    refine ⟨by simp [PackedLine.text, hnewline, hnewline'], ?_⟩
    rw [show (PackedLine.ref name oid).text = (oid ++ [' ']) ++ name by simp [PackedLine.text], hlast _ _ h.1.1]
    exact hcr

theorem lines_file {ls : List PackedLine} (h : ∀ l ∈ ls, l.Valid) :
    lines (ls.flatMap fun l => l.text ++ ['\n']) = ls.map text := by
  induction ls with
  | nil => decide
  | cons l ls ih =>
    obtain ⟨hnewline, hcr⟩ := text_newline (h l List.mem_cons_self)
    rw [List.flatMap_cons, List.append_assoc, List.singleton_append, lines_cons _ _ hnewline hcr,
      ih fun l' hl' => h l' (List.mem_cons_of_mem _ hl'), List.map_cons]

end PackedLine

namespace RefState

variable {s : RefState} {b : Bucket} {packed : List PackedLine}

theorem Stored.lookupPackedRef (h : s.Stored b packed) (refName : Str) :
    b.lookupPackedRef refName =
      (packed.filterMap PackedLine.ref?).findSome? fun r => if r.1 = refName then some r.2 else none := by
  unfold Bucket.lookupPackedRef
  rcases h.file with hfile | ⟨hnone, hempty⟩
  · have hvalue : ∀ ls : List PackedLine, (∀ l ∈ ls, l.Valid) → (ls.map PackedLine.text).findSome? (PackedLine.value refName) =
        (ls.filterMap PackedLine.ref?).findSome? fun r => if r.1 = refName then some r.2 else none := by
      intro ls hls
      induction ls with
      | nil => rfl
      | cons l ls ih =>
        have hrest := ih fun l' hl' => hls l' (List.mem_cons_of_mem _ hl')
        rw [List.map_cons, List.findSome?_cons, PackedLine.value_text (hls l List.mem_cons_self), List.filterMap_cons]
        cases l.ref? with
        | none => exact hrest
        | some r =>
          rw [Option.bind_some, List.findSome?_cons]
          split <;> simp_all
    rw [hfile]
    unfold PackedLine.file
    simp only [fromUtf8Lossy_asBytes, PackedLine.lines_file h.lines]
    exact hvalue packed h.lines
  · rw [hnone, hempty]
    rfl

/-- A lookup finds the commit of the branch, wherever it stands. -/
theorem Stored.lookupRef (h : s.Stored b packed) (hs : s.Valid) (branch : Str) :
    b.lookupRef (Bucket.branchRef branch) = s.commit branch := by
  unfold Bucket.lookupRef
  cases hdata : b.lookup (Bucket.branchRef branch) with
  | some data =>
    obtain ⟨oid, hoid, rfl⟩ := h.loose branch data hdata
    obtain ⟨htrim, hlen⟩ := (hs.oids _ ((commit_eq_some_iff hs).mp hoid)).line
    unfold Bucket.lookupLooseRef
    simp only [hdata, htrim, hlen, if_true, Option.some_or, hoid]
  | none =>
    have hloose : b.lookupLooseRef (Bucket.branchRef branch) = none := by
      unfold Bucket.lookupLooseRef
      rw [hdata]
    have hmem : ∀ oid, (Bucket.branchRef branch, oid) ∈ packed.filterMap PackedLine.ref? ↔
        s.commit branch = some oid := by
      intro oid
      rw [h.packed branch oid hdata, List.mem_filterMap]
      constructor
      · rintro ⟨l, hl, href⟩
        cases l <;> simp only [PackedLine.ref?, Option.some.injEq, Prod.mk.injEq, reduceCtorEq] at href
        obtain ⟨rfl, rfl⟩ := href
        exact hl
      · intro hl
        exact ⟨_, hl, rfl⟩
    rw [hloose, Option.none_or, h.lookupPackedRef]
    cases hoid : s.commit branch with
    | none =>
      rw [List.findSome?_eq_none_iff]
      rintro ⟨name, oid⟩ hr
      simp only
      split
      · rename_i hname
        have := (hmem oid).mp (hname ▸ hr)
        simp [hoid] at this
      · rfl
    | some oid =>
      have hthere := (hmem oid).mpr hoid
      obtain ⟨value, hvalue⟩ : ∃ value, (packed.filterMap PackedLine.ref?).findSome?
          (fun r => if r.1 = Bucket.branchRef branch then some r.2 else none) = some value := by
        refine Option.isSome_iff_exists.mp (List.findSome?_isSome_iff.mpr ⟨_, hthere, ?_⟩)
        simp
      obtain ⟨⟨name, oid'⟩, hr, hvalue'⟩ := List.exists_of_findSome?_eq_some hvalue
      split_ifs at hvalue' with hname
      obtain rfl := Option.some.inj hvalue'
      rw [hvalue]
      have hsame := (hmem oid').mp (hname ▸ hr)
      exact hsame.symm.trans hoid

/-- The bucket gives the commit of the branch that is asked for, and of the head when there is none. -/
theorem Stored.resolveHead (h : s.Stored b packed) (hs : s.Valid) (branchOverride : Option Str) :
    (b.resolveHead branchOverride).toOption.map Prod.fst =
      (branchOverride.bind s.commit).or (s.commit s.head) := by
  obtain ⟨oid, hoid⟩ := Option.isSome_iff_exists.mp hs.head
  have hname := hs.names _ ((commit_eq_some_iff hs).mp hoid)
  have htrimmed : s.head.rdropWhile isWhitespace = s.head := by
    rw [List.rdropWhile_eq_self_iff]
    intro hne
    simp [hname.2 _ (List.getLast_mem hne)]
  have href : b.headRef = some (Bucket.branchRef s.head) := by
    unfold Bucket.headRef
    rw [h.head, Option.bind_some, fromUtf8Lossy_asBytes, symbolicName_head, htrimmed]
  have hsymbolic : b.resolveSymbolicHead.toOption.map Prod.fst = s.commit s.head := by
    rw [Bucket.resolveSymbolicHead_of_headRef href, h.lookupRef hs, hoid]
    rfl
  cases branchOverride with
  | none =>
    rw [Bucket.resolveHead_none]
    exact hsymbolic
  | some branch =>
    rw [Bucket.resolveHead_some, h.lookupRef hs, Option.bind_some]
    cases s.commit branch with
    | none => exact hsymbolic
    | some c => rfl

/-- The branch that is asked for is there. If none is asked for, the last of main and master that is advertised,
if there is one, has the commit of HEAD. -/
def Agreeable (s : RefState) (adv : List (Str × Str)) : Option Str → Prop
  | some branch => (s.commit branch).isSome
  | none => ∀ oid, GitSmartHttpClient.lastMatch
      (fun name => name = GitSmartHttpClient.masterRef ∨ name = GitSmartHttpClient.mainRef) adv = some oid →
      s.commit s.head = some oid

/-- Both back ends give the commit that is asked for, or an error when there is none, if and only if the branch
is there, and without a branch no main or master that is advertised last has another commit than HEAD. -/
theorem back_ends_agree_iff {adv : List (Str × Str)} (hs : s.Valid) (hadv : s.Advertised adv)
    (hb : s.Stored b packed) (branchOverride : Option Str) :
    (GitSmartHttpClient.commitOf (GitSmartHttpClient.resolveHead (advertisement adv) branchOverride) =
          s.wanted branchOverride ∧
        (b.resolveHead branchOverride).toOption.map Prod.fst = s.wanted branchOverride) ↔
      s.Agreeable adv branchOverride := by
  obtain ⟨head, hhead⟩ := Option.isSome_iff_exists.mp hs.head
  rw [GitSmartHttpClient.commitOf_resolveHead hs hadv, hb.resolveHead hs, GitSmartHttpClient.lastMatch_head hs hadv]
  unfold wanted
  cases branchOverride with
  | some branch =>
    rw [GitSmartHttpClient.lastMatch_override hs hadv, Option.bind_some, Option.getD_some, hhead]
    unfold Agreeable
    cases hbranch : s.commit branch <;> simp [hbranch]
  | none =>
    have hmatch : (fun name => (GitSmartHttpClient.matchRef none name).isSome) = fun name =>
        decide (name = GitSmartHttpClient.masterRef ∨ name = GitSmartHttpClient.mainRef) := by
      funext name
      unfold GitSmartHttpClient.matchRef
      simp only
      split_ifs with h <;> simp [h]
    rw [hmatch, Option.bind_none, Option.none_or, Option.getD_none, hhead]
    unfold Agreeable
    rw [hhead]
    cases GitSmartHttpClient.lastMatch
      (fun name => name = GitSmartHttpClient.masterRef ∨ name = GitSmartHttpClient.mainRef) adv with
    | none => simp
    | some oid => simp [eq_comm]

/-! ### A head that is not main -/

def firstOid : Str := hexEncode (List.replicate 20 1)

def secondOid : Str := hexEncode (List.replicate 20 2)

/-- Two branches, of which HEAD names the one called `head`. -/
def twoBranches (head : Str) : RefState :=
  ⟨[("main".toList, firstOid), ("dev".toList, secondOid)], head⟩

def devRefs : List (Str × Str) :=
  [(Bucket.branchRef "dev".toList, secondOid), ("HEAD".toList, secondOid), (Bucket.branchRef "main".toList, firstOid)]

def mainRefs : List (Str × Str) :=
  [(Bucket.branchRef "main".toList, firstOid), (Bucket.branchRef "dev".toList, secondOid), ("HEAD".toList, firstOid)]

def packedMain : List PackedLine :=
  [.comment " pack-refs with: peeled fully-peeled sorted ".toList, .ref (Bucket.branchRef "main".toList) firstOid]

/-- The branch `dev` is loose and `main` is packed. -/
def twoBranchBucket (head : Str) : Bucket :=
  (((∅ : Bucket).writeRapidObject "HEAD".toList (asBytes ("ref: refs/heads/".toList ++ head ++ ['\n']))).writeRapidObject
    "packed-refs".toList (PackedLine.file packedMain)).writeRapidObject
      (Bucket.branchRef "dev".toList) (asBytes (secondOid ++ ['\n']))

theorem twoBranches_valid {head : Str} (h : ((twoBranches head).commit head).isSome) : (twoBranches head).Valid := by
  have hnodup : ["main".toList, "dev".toList].Nodup := by decide
  refine ⟨hnodup, ?_, ?_, h⟩
  · intro r hr
    rcases List.mem_pair.mp hr with rfl | rfl
    · exact ⟨by decide, not_whitespace_of_all (by decide)⟩
    · exact ⟨by decide, not_whitespace_of_all (by decide)⟩
  · intro r hr
    rcases List.mem_pair.mp hr with rfl | rfl
    · exact ⟨_, rfl, rfl⟩
    · exact ⟨_, rfl, rfl⟩

theorem mem_packedMain {name oid : Str} :
    PackedLine.ref name oid ∈ packedMain ↔ name = Bucket.branchRef "main".toList ∧ oid = firstOid := by
  unfold packedMain
  simp only [List.mem_cons, List.not_mem_nil, or_false, PackedLine.ref.injEq, reduceCtorEq, false_or]

theorem twoBranches_stored (head : Str) : (twoBranches head).Stored (twoBranchBucket head) packedMain := by
  have hpacked : ∀ branch, Bucket.branchRef branch ≠ "packed-refs".toList := by
    intro branch
    exact (GcsGitStorage.ne_of_head (a := 'p') rfl (GcsGitStorage.branchRef_head _) (by decide)).symm
  have hlookup : ∀ branch, branch ≠ "dev".toList → (twoBranchBucket head).lookup (Bucket.branchRef branch) = none := by
    intro branch hbranch
    unfold twoBranchBucket Bucket.writeRapidObject
    rw [AList.lookup_insert_ne (fun h => hbranch (branchRef_inj.mp h)), AList.lookup_insert_ne (hpacked branch),
      AList.lookup_insert_ne (head_ne_branchRef branch).symm]
    rfl
  have hdev : (twoBranchBucket head).lookup (Bucket.branchRef "dev".toList) = some (asBytes (secondOid ++ ['\n'])) :=
    AList.lookup_insert _
  refine ⟨?_, .inl ?_, ?_, by decide, ?_, ?_⟩
  · unfold twoBranchBucket Bucket.writeRapidObject
    rw [AList.lookup_insert_ne (by decide), AList.lookup_insert_ne (by decide), AList.lookup_insert]
    rfl
  · unfold twoBranchBucket Bucket.writeRapidObject
    rw [AList.lookup_insert_ne (by decide), AList.lookup_insert]
  · intro l hl
    rcases List.mem_pair.mp hl with rfl | rfl
    · exact ⟨by decide, by decide⟩
    · exact ⟨⟨by decide, not_whitespace_of_all (by decide)⟩, _, rfl, rfl⟩
  · intro branch data hdata
    by_cases hbranch : branch = "dev".toList
    · subst hbranch
      rw [hdev, Option.some.injEq] at hdata
      exact ⟨secondOid, rfl, hdata.symm⟩
    · rw [hlookup branch hbranch] at hdata
      cases hdata
  · intro branch oid hnone
    have hbranch : branch ≠ "dev".toList := by
      rintro rfl
      rw [hdev] at hnone
      cases hnone
    rw [mem_packedMain, branchRef_inj]
    by_cases hmain : branch = "main".toList
    · subst hmain
      rw [show (twoBranches head).commit "main".toList = some firstOid from rfl, Option.some.injEq, eq_comm]
      exact (and_iff_right rfl).symm
    · have hmain' : (branch == "main".toList) = false := beq_eq_false_iff_ne.mpr hmain
      have hdev' : (branch == "dev".toList) = false := beq_eq_false_iff_ne.mpr hbranch
      unfold commit twoBranches
      rw [List.lookup_cons, hmain', List.lookup_cons, hdev']
      exact iff_of_false nofun fun h => hmain h.1

theorem devRefs_advertised : (twoBranches "dev".toList).Advertised devRefs :=
  ⟨by decide, by decide⟩

theorem mainRefs_advertised : (twoBranches "main".toList).Advertised mainRefs :=
  ⟨by decide, by decide⟩

/-- HEAD names `main`, and no branch is asked for. -/
theorem back_ends_agree_main :
    GitSmartHttpClient.commitOf (GitSmartHttpClient.resolveHead (advertisement mainRefs) none) =
        (twoBranches "main".toList).wanted none ∧
      ((twoBranchBucket "main".toList).resolveHead none).toOption.map Prod.fst =
        (twoBranches "main".toList).wanted none := by
  refine (back_ends_agree_iff (twoBranches_valid (by decide)) mainRefs_advertised
    (twoBranches_stored "main".toList) none).mpr ?_
  intro oid h
  rw [← h]
  decide

/-- HEAD names `dev`: over HTTP that is `main`. A branch that is not there is the head in both. -/
theorem back_ends_disagree :
    ((twoBranches "dev".toList).Valid ∧ (twoBranches "dev".toList).Advertised devRefs ∧
      (twoBranches "dev".toList).Stored (twoBranchBucket "dev".toList) packedMain) ∧
    (GitSmartHttpClient.commitOf (GitSmartHttpClient.resolveHead (advertisement devRefs) none) = some firstOid ∧
      ((twoBranchBucket "dev".toList).resolveHead none).toOption.map Prod.fst = some secondOid ∧
      (twoBranches "dev".toList).wanted none = some secondOid ∧ firstOid ≠ secondOid) ∧
    GitSmartHttpClient.commitOf (GitSmartHttpClient.resolveHead (advertisement devRefs) (some "gone".toList)) =
        some secondOid ∧
      ((twoBranchBucket "dev".toList).resolveHead (some "gone".toList)).toOption.map Prod.fst = some secondOid ∧
      (twoBranches "dev".toList).wanted (some "gone".toList) = none := by
  have hvalid : (twoBranches "dev".toList).Valid := twoBranches_valid (by decide)
  have hstored := twoBranches_stored "dev".toList
  refine ⟨⟨hvalid, devRefs_advertised, hstored⟩, ⟨?_, ?_, by decide, by decide⟩, ?_, ?_, by decide⟩
  · rw [GitSmartHttpClient.commitOf_resolveHead hvalid devRefs_advertised]
    decide
  · rw [hstored.resolveHead hvalid]
    decide
  · rw [GitSmartHttpClient.commitOf_resolveHead hvalid devRefs_advertised]
    decide
  · rw [hstored.resolveHead hvalid]
    decide

end RefState

end GitNfs
