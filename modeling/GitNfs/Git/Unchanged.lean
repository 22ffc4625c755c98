import GitNfs.Git.Builder
import GitNfs.Vfs.WellFormed
import Mathlib.Data.Finset.Card

/-! # Trees that nobody changed

The entries of a tree become the children of a directory, and the children are sorted and written as a tree
again. Where the tree was one that Git writes, nothing is lost on the way.
-/

namespace GitNfs

/-! ## Modes, as Git spells them -/

/-- An octal number that fits 32 bits and has no leading zero. -/
def OctalMode (s : Str) : Prop := s ≠ [] ∧ s.head? ≠ some '0' ∧ ∃ n, n < 2 ^ 32 ∧ octalDigits s 0 = some n

def CanonicalMode (s : Str) : Prop :=
  s = "100644".toList ∨ s = "100755".toList ∨ s = "40000".toList ∨ s = "120000".toList ∨ s = "160000".toList ∨
    OctalMode s

theorem toDigits_octal {c : Char} (hlo : '0' ≤ c) (hhi : c ≤ '7') :
    c.toNat - 48 < 8 ∧ Nat.toDigits 8 (c.toNat - 48) = [c] := by
  have hlo' : 48 ≤ c.toNat := hlo
  have hhi' : c.toNat ≤ 55 := hhi
  obtain ⟨d, hd⟩ : ∃ d, c.toNat = 48 + d := ⟨c.toNat - 48, by omega⟩
  have hc : c = Char.ofNat (48 + d) := by rw [← hd, Char.ofNat_toNat]
  have hlt : d < 8 := by omega
  rw [hd, Nat.add_sub_cancel_left]
  refine ⟨hlt, ?_⟩
  have hchar : ∀ d, d < 8 → d.digitChar = Char.ofNat (48 + d) := by decide
  rw [hc, Nat.toDigits_of_lt_base hlt, hchar d hlt]

/-- The digits of a number go on from those of what stands before them. -/
theorem toDigits_octalDigits {s : Str} {acc n : Nat} (hacc : 0 < acc) (h : octalDigits s acc = some n) :
    Nat.toDigits 8 n = Nat.toDigits 8 acc ++ s := by
  induction s generalizing acc with
  | nil =>
    obtain rfl := Option.some.inj h
    exact (List.append_nil _).symm
  | cons c cs ih =>
    rw [octalDigits] at h
    split_ifs at h with hc
    obtain ⟨hlt, hdigit⟩ := toDigits_octal hc.1 hc.2
    rw [ih (by omega) h, ← Nat.toDigits_append_toDigits (by omega) hacc hlt, hdigit, List.append_assoc,
      List.singleton_append]

theorem toDigits_of_octalDigits {s : Str} {n : Nat} (hne : s ≠ []) (hhead : s.head? ≠ some '0')
    (h : octalDigits s 0 = some n) : Nat.toDigits 8 n = s := by
  cases s with
  | nil => exact absurd rfl hne
  | cons c cs =>
    rw [octalDigits] at h
    split_ifs at h with hc
    obtain ⟨-, hdigit⟩ := toDigits_octal hc.1 hc.2
    have hpos : 0 < c.toNat - 48 := by
      have hlo : 48 ≤ c.toNat := hc.1
      by_contra hzero
      have hc0 : c = Char.ofNat 48 := by rw [← Char.ofNat_toNat c]; congr 1; omega
      exact hhead (by rw [hc0]; rfl)
    rw [Nat.mul_zero, Nat.zero_add] at h
    rw [toDigits_octalDigits hpos h, hdigit, List.singleton_append]

theorem fromStrRadix8_octal {s : Str} {n : Nat} (hne : s ≠ []) (h : octalDigits s 0 = some n) (hn : n < 2 ^ 32) :
    fromStrRadix8 s = some n := by
  cases s with
  | nil => exact absurd rfl hne
  | cons c cs =>
    have hc : c ≠ '+' := by
      rintro rfl
      rw [octalDigits, if_neg (by decide)] at h
      simp at h
    unfold fromStrRadix8
    split
    · rename_i heq
      exact absurd (List.cons.inj heq).1 hc
    · rw [if_neg (List.cons_ne_nil _ _), h]
      exact if_pos hn

/-- A mode is written as it was read. -/
theorem modeStr_fromModeStr {s : Str} (h : CanonicalMode s) : (TreeEntryMode.fromModeStr s).modeStr = s := by
  unfold TreeEntryMode.fromModeStr
  by_cases h₁ : s = "100644".toList
  · rw [if_pos h₁, h₁]; rfl
  by_cases h₂ : s = "100755".toList
  · rw [if_neg h₁, if_pos h₂, h₂]; rfl
  by_cases h₃ : s = "40000".toList
  · rw [if_neg h₁, if_neg h₂, if_pos (.inl h₃), h₃]; rfl
  by_cases h₄ : s = "120000".toList
  · rw [h₄]; rfl
  by_cases h₅ : s = "160000".toList
  · rw [h₅]; rfl
  obtain ⟨hne, hhead, n, hn, hdigits⟩ : OctalMode s := by
    unfold CanonicalMode at h
    tauto
  have h₆ : s ≠ "040000".toList := by
    rintro rfl
    exact hhead rfl
  rw [if_neg h₁, if_neg h₂, if_neg (by tauto), if_neg h₄, if_neg h₅, fromStrRadix8_octal hne hdigits hn]
  exact toDigits_of_octalDigits hne hhead hdigits

theorem isDir_fromModeStr {s : Str} (h : CanonicalMode s) :
    (TreeEntryMode.fromModeStr s).isDir = decide (s = "40000".toList) := by
  by_cases hdir : s = "40000".toList
  · rw [hdir]
    rfl
  · rw [decide_eq_false hdir, TreeEntryMode.isDir, decide_eq_false]
    intro hmode
    have hspell := modeStr_fromModeStr h
    rw [hmode] at hspell
    exact hdir hspell.symm

/-! ## Trees, as Git writes them -/

structure SpelledEntry where
  mode : Str
  name : Str
  sha : Bytes
  deriving DecidableEq, Repr

namespace SpelledEntry

def raw (e : SpelledEntry) : Bytes := asBytes (e.mode ++ ' ' :: e.name) ++ 0 :: e.sha

def isDir (e : SpelledEntry) : Bool := e.mode = "40000".toList

def entry (e : SpelledEntry) : GitTreeEntry := ⟨TreeEntryMode.fromModeStr e.mode, e.name, hexEncode e.sha⟩

structure Canonical (e : SpelledEntry) : Prop where
  mode : CanonicalMode e.mode
  slash : '/' ∉ e.name
  nul : Char.ofNat 0 ∉ e.name
  sha : e.sha.length = 20

theorem Canonical.raw_eq {e : SpelledEntry} (h : e.Canonical) :
    e.raw = rawEntry (TreeEntryMode.fromModeStr e.mode) e.name e.sha := by
  rw [rawEntry, modeStr_fromModeStr h.mode, SpelledEntry.raw]

end SpelledEntry

/-- A loaded tree whose bytes are entries in Git's order, each name once, and whose id is that of its bytes. -/
structure CanonicalTree (g : GitEngine) (oid : Str) (es : List SpelledEntry) : Prop where
  loaded : ∃ t, GitTree.parse (es.flatMap SpelledEntry.raw) = .ok t ∧ g.getTree oid = some t
  named : computeGitSha1 .tree (es.flatMap SpelledEntry.raw) = oid
  entries : ∀ e ∈ es, e.Canonical
  distinct : (es.map (·.name)).Nodup
  sorted : es.Pairwise fun a b => compareTreeEntries a.name a.isDir b.name b.isDir = .lt

/-- Such a tree with none of the names that are left out. -/
def ShownTree (g : GitEngine) (oid : Str) : Prop :=
  ∃ es, CanonicalTree g oid es ∧ ∀ e ∈ es, isAppleMetadata e.name = false

/-- The trees below the root, through entries that are directories. -/
inductive ReachableTree (g : GitEngine) (rootOid : Str) : Str → Prop where
  | root : ReachableTree g rootOid rootOid
  | entry {oid : Str} {e : GitTreeEntry} : ReachableTree g rootOid oid → e ∈ VfsManager.treeEntries g oid →
      e.mode.isDir = true → ReachableTree g rootOid e.oid

variable {g : GitEngine} {rootOid : Str}

theorem parse_spelled {es : List SpelledEntry} (h : ∀ e ∈ es, e.Canonical) :
    GitTree.parse (es.flatMap SpelledEntry.raw) = .ok ⟨es.map SpelledEntry.entry⟩ := by
  have hraw : es.flatMap SpelledEntry.raw =
      rawTree (es.map fun e => (TreeEntryMode.fromModeStr e.mode, e.name, e.sha)) := by
    rw [rawTree, List.flatMap_map]
    exact List.flatMap_congr fun e he => (h e he).raw_eq
  have hread : ∀ e ∈ es.map fun e => (TreeEntryMode.fromModeStr e.mode, e.name, e.sha),
      Char.ofNat 0 ∉ e.2.1 ∧ e.2.2.length = 20 := by
    intro e he
    obtain ⟨e', he', rfl⟩ := List.mem_map.mp he
    exact ⟨(h e' he').nul, (h e' he').sha⟩
  rw [hraw, parse_rawTree _ hread, List.map_map]
  congr 2
  refine List.map_congr_left fun e he => ?_
  simp only [Function.comp_apply, readBack, modeStr_fromModeStr (h e he).mode, SpelledEntry.entry]

theorem CanonicalTree.treeEntries_eq {oid : Str} {es : List SpelledEntry} (h : CanonicalTree g oid es) :
    VfsManager.treeEntries g oid = es.map SpelledEntry.entry := by
  obtain ⟨t, hparse, hloaded⟩ := h.loaded
  rw [parse_spelled h.entries] at hparse
  obtain rfl := Except.ok.inj hparse
  rw [VfsManager.treeEntries, hloaded]

/-! ## A tree that is only looked at -/

/-- Directories were asked for their children, and nothing else. -/
inductive Browsed (g : GitEngine) (rootOid : Str) : VfsManager → Prop where
  | fresh : Browsed g rootOid (VfsManager.new rootOid)
  | populate {v : VfsManager} (d : Nat) : Browsed g rootOid v → Browsed g rootOid (v.ensureDirPopulated g d).2

/-- Nodes stay what they are. -/
def Extends (v v' : VfsManager) : Prop := ∀ i n, v.nodes i = some n → v'.nodes i = some n

theorem Extends.refl (v : VfsManager) : Extends v v := fun _ _ h => h

theorem Extends.trans {v₁ v₂ v₃ : VfsManager} (h : Extends v₁ v₂) (h' : Extends v₂ v₃) : Extends v₁ v₃ :=
  fun i n hn => h' i n (h i n hn)

/-- Every directory is a tree below the root, and has the children that its entries make, in their order. -/
structure Mirrors (g : GitEngine) (rootOid : Str) (v : VfsManager) : Prop where
  wf : v.WellFormed
  root : ∃ n, v.nodes rootInode = some n ∧ n.isDir = true ∧ n.oid = rootOid
  trees : ∀ i n, v.nodes i = some n → n.isDir = true → ReachableTree g rootOid n.oid
  listed : ∀ d ids, v.dirChildren d = some ids → ∃ dir, v.nodes d = some dir ∧
    List.Forall₂ (fun i e => d < i ∧ v.nodes i = some (VfsManager.entryNode g d i e)) ids
      (VfsManager.treeEntries g dir.oid)

namespace Mirrors

variable {v : VfsManager}

theorem fresh (g : GitEngine) (rootOid : Str) : Mirrors g rootOid (VfsManager.new rootOid) := by
  have hroot : (VfsManager.new rootOid).nodes rootInode =
      some ⟨rootInode, rootInode, ['/'], rootOid, .directory, true, 4096, false⟩ := by simp [VfsManager.new]
  refine ⟨.new rootOid, ⟨_, hroot, rfl, rfl⟩, fun i n hn _ => ?_, fun d ids hids => by simp [VfsManager.new] at hids⟩
  simp only [VfsManager.new, Function.update_apply] at hn
  split_ifs at hn
  rw [← Option.some.inj hn]
  exact .root

theorem extends_populate (h : Mirrors g rootOid v) {d : Nat} (hd : v.dirChildren d = none) (oid : Str) :
    Extends v (v.populate g d oid) := fun _ _ hn => VfsManager.populate_nodes_old h.wf hd hn

theorem populate (h : Mirrors g rootOid v) {d : Nat} {dir : VfsNode} (hd : v.dirChildren d = none)
    (hdir : v.nodes d = some dir) (hisDir : dir.isDir = true) : Mirrors g rootOid (v.populate g d dir.oid) := by
  have hkeep := h.extends_populate (g := g) hd dir.oid
  refine ⟨h.wf.populate hd hdir hisDir _, ?_, fun i n hn hn' => ?_, fun d' ids hids => ?_⟩
  · obtain ⟨n, hn, hrest⟩ := h.root
    exact ⟨n, hkeep _ _ hn, hrest⟩
  · rcases VfsManager.populate_nodes_cases h.wf hd hn with hn | ⟨k, e, he, -, rfl⟩
    · exact h.trees i n hn hn'
    · exact .entry (h.trees d dir hdir hisDir) (List.mem_of_getElem? he) hn'
  · rw [VfsManager.populate_dirChildren (h.wf.unmapped hd)] at hids
    split_ifs at hids with hdd
    · subst hdd
      obtain rfl := Option.some.inj hids
      refine ⟨dir, hkeep _ _ hdir, List.forall₂_iff_get.mpr ⟨List.length_range', fun k hk hk' => ?_⟩⟩
      have hlt := h.wf.fresh d' dir hdir
      have he := List.getElem?_eq_getElem hk'
      have hnode := VfsManager.populate_nodes_new h.wf hd he
      simp only [List.get_eq_getElem, List.getElem_range', Nat.one_mul]
      exact ⟨by omega, hnode⟩
    · obtain ⟨dir', hdir', hall⟩ := h.listed d' ids hids
      exact ⟨dir', hkeep _ _ hdir', hall.imp fun i e hi => ⟨hi.1, hkeep _ _ hi.2⟩⟩

theorem ensureDirPopulated (h : Mirrors g rootOid v) (d : Nat) :
    Mirrors g rootOid (v.ensureDirPopulated g d).2 ∧ Extends v (v.ensureDirPopulated g d).2 := by
  rcases VfsManager.ensureDirPopulated_cases g v d with
    ⟨ids, -, heq⟩ | ⟨dir, hd, hdir, hisDir, heq⟩ | ⟨e, heq⟩ <;> rw [heq]
  · exact ⟨h, .refl v⟩
  · exact ⟨h.populate hd hdir hisDir, h.extends_populate hd _⟩
  · exact ⟨h, .refl v⟩

end Mirrors

theorem Browsed.mirrors {v : VfsManager} (h : Browsed g rootOid v) : Mirrors g rootOid v := by
  induction h with
  | fresh => exact .fresh g rootOid
  | populate d _ ih => exact (ih.ensureDirPopulated d).1

/-! ## Writing the trees again -/

/-- A child as the entry has it. -/
def ChildOfEntry (v : VfsManager) (dirId : Nat) (child : VfsNode) (e : SpelledEntry) : Prop :=
  dirId < child.id ∧ v.nodes child.id = some child ∧ child.mode = TreeEntryMode.fromModeStr e.mode ∧
    child.name = e.name ∧ child.oid = hexEncode e.sha ∧ child.isDir = e.isDir ∧ child.isDeleted = false

theorem ChildOfEntry.extends {v v' : VfsManager} {dirId : Nat} {child : VfsNode} {e : SpelledEntry}
    (h : ChildOfEntry v dirId child e) (hext : Extends v v') : ChildOfEntry v' dirId child e :=
  ⟨h.1, hext _ _ h.2.1, h.2.2⟩

/-- The list of a directory is the children of its tree's entries. -/
theorem Mirrors.listDir {v : VfsManager} (h : Mirrors g rootOid v) {d : Nat} {dir : VfsNode}
    (hdir : v.nodes d = some dir) (hisDir : dir.isDir = true) {es : List SpelledEntry}
    (hes : CanonicalTree g dir.oid es) :
    ∃ children v', v.listDir g d = (.ok children, v') ∧ Mirrors g rootOid v' ∧ Extends v v' ∧
      List.Forall₂ (ChildOfEntry v' d) children es := by
  obtain ⟨hmirrors, hext⟩ := h.ensureDirPopulated d
  have hok : ∃ v', v.ensureDirPopulated g d = (.ok (), v') ∧ ∃ ids, v'.dirChildren d = some ids := by
    rcases VfsManager.ensureDirPopulated_cases g v d with
      ⟨ids, hids, heq⟩ | ⟨dir', hd, hdir', -, heq⟩ | ⟨e, heq⟩
    · exact ⟨v, heq, ids, hids⟩
    · refine ⟨_, heq, List.range' v.nextInode (VfsManager.treeEntries g dir'.oid).length, ?_⟩
      rw [VfsManager.populate_dirChildren (h.wf.unmapped hd), if_pos rfl]
    · unfold VfsManager.ensureDirPopulated at heq
      split at heq
      · simp at heq
      · rw [hdir] at heq
        simp [hisDir] at heq
  obtain ⟨v', heq, ids, hids⟩ := hok
  rw [heq] at hmirrors hext
  refine ⟨(ids.filterMap v'.getNode), v', ?_, hmirrors, hext, ?_⟩
  · unfold VfsManager.listDir
    rw [heq]
    simp only [hids, Option.getD_some]
  · obtain ⟨dir', hdir', hall⟩ := hmirrors.listed d ids hids
    obtain rfl : dir' = dir := Option.some.inj (hdir'.symm.trans (hext _ _ hdir))
    rw [hes.treeEntries_eq, List.forall₂_map_right_iff] at hall
    have hcanonical := hes.entries
    clear hids heq hes
    induction hall with
    | nil => exact .nil
    | @cons i e ids es hi hall ih =>
      have hnode : v'.getNode i = some (VfsManager.entryNode g d i e.entry) := by
        rw [VfsManager.getNode, hi.2]
        rfl
      rw [List.filterMap_cons_some hnode]
      refine .cons ⟨hi.1, hi.2, rfl, rfl, rfl, ?_, rfl⟩ (ih fun e' he' => hcanonical e' (List.mem_cons_of_mem _ he'))
      exact isDir_fromModeStr (hcanonical e List.mem_cons_self).mode

/-- The children are all shown, and already in order. -/
theorem validChildren_eq {v : VfsManager} {d : Nat} {children : List VfsNode} {es : List SpelledEntry}
    {staging : StagingStore} (hdeleted : staging.listDeletedNodes = [])
    (hshown : ∀ e ∈ es, isAppleMetadata e.name = false)
    (hsorted : es.Pairwise fun a b => compareTreeEntries a.name a.isDir b.name b.isDir = .lt)
    (h : List.Forall₂ (ChildOfEntry v d) children es) : validChildren staging children = children := by
  have hkeys : children.map (fun c => (c.name, c.isDir)) = es.map fun e => (e.name, e.isDir) := by
    clear hshown hsorted
    induction h with
    | nil => rfl
    | cons hce _ ih => rw [List.map_cons, List.map_cons, ih, hce.2.2.2.1, hce.2.2.2.2.2.1]
  have hkeep : children.filter (fun c => !isAppleMetadata c.name && !staging.isDeleted c.id) = children := by
    rw [List.filter_eq_self]
    intro c hc
    have hmem : (c.name, c.isDir) ∈ es.map fun e => (e.name, e.isDir) :=
      hkeys ▸ List.mem_map_of_mem (f := fun c : VfsNode => (c.name, c.isDir)) hc
    obtain ⟨e, he, heq⟩ := List.mem_map.mp hmem
    rw [← (Prod.mk.inj heq).1, hshown e he, StagingStore.isDeleted]
    rw [StagingStore.listDeletedNodes] at hdeleted
    simp [hdeleted]
  rw [validChildren, hkeep]
  refine List.Pairwise.insertionSort_eq ?_
  have hle : (children.map fun c => (c.name, c.isDir)).Pairwise
      fun a b => (compareTreeEntries a.1 a.2 b.1 b.2).isLE := by
    rw [hkeys, List.pairwise_map]
    exact hsorted.imp fun hlt => by rw [hlt]; rfl
  exact List.pairwise_map.mp hle

/-- A subdirectory is written again as the tree it was. -/
def KeepsTrees (g : GitEngine) (rootOid : Str) (rebuild : Nat → VfsManager → NewObjects → TreeResult Str)
    (child : VfsNode) : Prop :=
  ∀ v objs, Mirrors g rootOid v → v.nodes child.id = some child → child.isDir = true →
    ∃ v', rebuild child.id v objs = some (.ok child.oid, v', objs) ∧ Mirrors g rootOid v' ∧ Extends v v'

theorem rebuildChildren_unchanged {dirty : List Nat} {rebuild : Nat → VfsManager → NewObjects → TreeResult Str}
    {d : Nat} {children : List VfsNode} {es : List SpelledEntry} {v : VfsManager}
    (hv : Mirrors g rootOid v) (h : List.Forall₂ (ChildOfEntry v d) children es) (hes : ∀ e ∈ es, e.Canonical)
    (hrebuild : ∀ c ∈ children, d < c.id → c.id ∈ dirty → KeepsTrees g rootOid rebuild c)
    (objs : NewObjects) (raw : Bytes) :
    ∃ v', rebuildChildren dirty rebuild children v objs raw =
      some (.ok (raw ++ es.flatMap SpelledEntry.raw), v', objs) ∧ Mirrors g rootOid v' ∧ Extends v v' := by
  induction children generalizing v raw es with
  | nil =>
    cases h
    exact ⟨v, by rw [rebuildChildren, List.flatMap_nil, List.append_nil], hv, .refl v⟩
  | cons c children ih =>
    cases h with
    | @cons _ e _ es hce hrest =>
      obtain ⟨hlt, hnode, hmode, hname, hoid, hisDir, -⟩ := id hce
      have hchild : ∃ v₁, (if c.isDir && dirty.contains c.id then rebuild c.id v objs else some (.ok c.oid, v, objs)) =
          some (.ok c.oid, v₁, objs) ∧ Mirrors g rootOid v₁ ∧ Extends v v₁ := by
        split_ifs with hc
        · rw [Bool.and_eq_true, List.contains_iff_mem] at hc
          exact hrebuild c List.mem_cons_self hlt hc.2 v objs hv hnode hc.1
        · exact ⟨v, rfl, hv, .refl v⟩
      obtain ⟨v₁, hcall, hv₁, hext₁⟩ := hchild
      have hsha := (hes e List.mem_cons_self).sha
      have hne : c.oid ≠ [] := by
        rw [hoid]
        obtain ⟨b, bs, hb⟩ := List.exists_cons_of_length_pos (by omega : 0 < e.sha.length)
        rw [hb]
        exact List.cons_ne_nil _ _
      obtain ⟨v₂, hloop, hv₂, hext₂⟩ := ih hv₁ (hrest.imp fun _ _ hx => hx.extends hext₁)
        (fun e' he' => hes e' (List.mem_cons_of_mem _ he'))
        (fun c' hc' => hrebuild c' (List.mem_cons_of_mem _ hc')) (raw ++ e.raw)
      refine ⟨v₂, ?_, hv₂, hext₁.trans hext₂⟩
      rw [rebuildChildren, hcall]
      simp only [if_neg hne]
      rw [hoid, hexDecode_hexEncode]
      simp only
      rw [hmode, hname, ← (hes e List.mem_cons_self).raw_eq, hloop, List.flatMap_cons, List.append_assoc]

/-- The dirty directories that have a larger inode. -/
def dirtyAbove (dirty : List Nat) (id : Nat) : Finset Nat := dirty.toFinset.filter (id < ·)

theorem dirtyAbove_lt {dirty : List Nat} {d id : Nat} (hlt : d < id) (hid : id ∈ dirty) :
    (dirtyAbove dirty id).card < (dirtyAbove dirty d).card := by
  refine Finset.card_lt_card (Finset.ssubset_iff_of_subset (fun j hj => ?_) |>.mpr ⟨id, ?_, ?_⟩)
  · rw [dirtyAbove, Finset.mem_filter] at hj ⊢
    exact ⟨hj.1, by omega⟩
  · rw [dirtyAbove, Finset.mem_filter, List.mem_toFinset]
    exact ⟨hid, hlt⟩
  · simp [dirtyAbove]

/-- Every directory of a tree that is only looked at is written as the tree it came from. -/
theorem rebuildTree_unchanged {staging : StagingStore} (dirty : List Nat)
    (htable : ∀ oid, ReachableTree g rootOid oid → ShownTree g oid)
    (hdeleted : staging.listDeletedNodes = []) (fuel : Nat) :
    ∀ dir : VfsNode, (dirtyAbove dirty dir.id).card < fuel →
      KeepsTrees g rootOid (rebuildTreeRecursive g staging dirty fuel) dir := by
  induction fuel with
  | zero => exact fun dir hfuel => absurd hfuel (Nat.not_lt_zero _)
  | succ fuel ih =>
    intro dir hfuel v objs hv hdir hisDir
    obtain ⟨es, hes, hshown⟩ := htable dir.oid (hv.trees _ dir hdir hisDir)
    obtain ⟨children, v₁, hlist, hv₁, hext₁, hall⟩ := hv.listDir hdir hisDir hes
    have hbelow : ∀ c ∈ children, dir.id < c.id → c.id ∈ dirty →
        KeepsTrees g rootOid (rebuildTreeRecursive g staging dirty fuel) c := fun c _ hlt hc =>
      ih c (Nat.lt_of_lt_of_le (dirtyAbove_lt hlt hc) (Nat.le_of_lt_succ hfuel))
    obtain ⟨v₂, hloop, hv₂, hext₂⟩ := rebuildChildren_unchanged hv₁ hall hes.entries hbelow objs []
    refine ⟨v₂, ?_, hv₂, hext₁.trans hext₂⟩
    obtain ⟨t, -, hloaded⟩ := hes.loaded
    rw [rebuildTreeRecursive, hlist]
    simp only [validChildren_eq hdeleted hshown hes.sorted hall]
    rw [hloop]
    simp only [List.nil_append, hes.named, hloaded]

/-- A tree that nobody changed is written again as it was, whichever directories are dirty. -/
theorem rebuildTreeRecursive_unmodified {staging : StagingStore} {v : VfsManager} (dirty : List Nat)
    (objs : NewObjects) (htable : ∀ oid, ReachableTree g rootOid oid → ShownTree g oid)
    (hv : Browsed g rootOid v) (hdeleted : staging.listDeletedNodes = []) :
    ∃ n, ∀ fuel, n < fuel → ∃ v',
      rebuildTreeRecursive g staging dirty fuel rootInode v objs = some (.ok rootOid, v', objs) := by
  obtain ⟨n, hn, hisDir, hoid⟩ := hv.mirrors.root
  have hid := hv.mirrors.wf.id_eq _ n hn
  refine ⟨dirty.length, fun fuel hfuel => ?_⟩
  have hcard : (dirtyAbove dirty n.id).card < fuel :=
    Nat.lt_of_le_of_lt ((Finset.card_filter_le _ _).trans (List.toFinset_card_le _)) hfuel
  obtain ⟨v', hrun, -⟩ := rebuildTree_unchanged dirty htable hdeleted fuel n hcard v objs hv.mirrors (hid ▸ hn) hisDir
  rw [hid, hoid] at hrun
  exact ⟨v', hrun⟩

/-! ### A file and a directory of one beginning -/

def sampleSub : List SpelledEntry := [⟨"120000".toList, "f".toList, List.replicate 20 9⟩]

def sampleSubOid : Str := computeGitSha1 .tree (sampleSub.flatMap SpelledEntry.raw)

def sampleTop : List SpelledEntry :=
  [⟨"100664".toList, "a.txt".toList, List.replicate 20 7⟩, ⟨"40000".toList, "a".toList, (hexDecode sampleSubOid).getD []⟩]

def sampleTopOid : Str := computeGitSha1 .tree (sampleTop.flatMap SpelledEntry.raw)

def sampleTrees (oid : Str) : Option GitTree :=
  if oid = sampleTopOid then some ⟨sampleTop.map SpelledEntry.entry⟩
  else if oid = sampleSubOid then some ⟨sampleSub.map SpelledEntry.entry⟩
  else none

def sampleTable : GitEngine := ⟨sampleTrees, none, none, fun _ => none, fun _ => none, none, false⟩

theorem sampleTable_getTree (oid : Str) : sampleTable.getTree oid = sampleTrees oid := rfl

theorem sampleTop_canonical : CanonicalTree sampleTable sampleTopOid sampleTop := by
  have hentries : ∀ e ∈ sampleTop, e.Canonical := by
    intro e he
    simp only [sampleTop, List.mem_cons, List.not_mem_nil, or_false] at he
    rcases he with rfl | rfl
    · exact ⟨.inr (.inr (.inr (.inr (.inr ⟨by decide, by decide, 0o100664, by decide, by decide⟩)))), by decide,
        by decide, by decide⟩
    · exact ⟨.inr (.inr (.inl rfl)), by decide, by decide, by decide +kernel⟩
  refine ⟨⟨_, parse_spelled hentries, ?_⟩, rfl, hentries, by decide, by decide⟩
  rw [sampleTable_getTree, sampleTrees, if_pos rfl]

theorem sampleSub_canonical : CanonicalTree sampleTable sampleSubOid sampleSub := by
  have hentries : ∀ e ∈ sampleSub, e.Canonical := by
    intro e he
    obtain rfl := List.mem_singleton.mp he
    exact ⟨.inr (.inr (.inr (.inl rfl))), by decide, by decide, by decide⟩
  have hne : sampleSubOid ≠ sampleTopOid := by decide +kernel
  refine ⟨⟨_, parse_spelled hentries, ?_⟩, rfl, hentries, by decide, by decide⟩
  rw [sampleTable_getTree, sampleTrees, if_neg hne, if_pos rfl]

theorem sample_reachable {oid : Str} (h : ReachableTree sampleTable sampleTopOid oid) :
    oid = sampleTopOid ∨ oid = sampleSubOid := by
  induction h with
  | root => exact .inl rfl
  | @entry oid e _ he hisDir ih =>
    rcases ih with rfl | rfl
    · rw [sampleTop_canonical.treeEntries_eq] at he
      simp only [sampleTop, List.map_cons, List.map_nil, List.mem_cons, List.not_mem_nil, or_false] at he
      rcases he with rfl | rfl
      · exact absurd hisDir (by decide)
      · exact .inr (by decide +kernel)
    · rw [sampleSub_canonical.treeEntries_eq] at he
      simp only [sampleSub, List.map_cons, List.map_nil, List.mem_cons, List.not_mem_nil, or_false] at he
      subst he
      exact absurd hisDir (by decide)

theorem rebuildTreeRecursive_sample :
    ∃ n, ∀ fuel, n < fuel → ∃ v', rebuildTreeRecursive sampleTable StagingStore.new [1, 3] fuel rootInode
      (VfsManager.new sampleTopOid) ∅ = some (.ok sampleTopOid, v', ∅) := by
  refine rebuildTreeRecursive_unmodified [1, 3] ∅ (fun oid hoid => ?_) .fresh rfl
  rcases sample_reachable hoid with rfl | rfl
  · exact ⟨_, sampleTop_canonical, by decide⟩
  · exact ⟨_, sampleSub_canonical, by decide⟩

end GitNfs
