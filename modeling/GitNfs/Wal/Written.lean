import GitNfs.Commits
import GitNfs.Git.FileView
import GitNfs.Wal.Packed

/-! # The files that a commit shows

The trees of a commit are read back entry by entry. A directory that was written again shows its children, and
one that was not shows what its tree has.
-/

namespace GitNfs

open VfsManager

variable {g g' : GitEngine} {staging : StagingStore} {dirty : List Nat} {v w : VfsManager}

/-! ## Reading a tree back -/

theorem lastEntry_eq_some {es : List GitTreeEntry} (hnodup : (es.map (·.name)).Nodup) {name : Str} {e : GitTreeEntry} :
    lastEntry es name = some e ↔ e ∈ es ∧ e.name = name := by
  induction es generalizing e with
  | nil => simp [lastEntry]
  | cons e' es ih =>
    rw [List.map_cons, List.nodup_cons] at hnodup
    rw [lastEntry_cons, List.mem_cons]
    cases hlast : lastEntry es name with
    | some last =>
      obtain ⟨hmem, hname⟩ := (ih hnodup.2).mp hlast
      have hne : e'.name ≠ name := fun h => hnodup.1 (h.trans hname.symm ▸ List.mem_map_of_mem hmem)
      rw [Option.some_or, ← hlast, ih hnodup.2]
      constructor
      · rintro ⟨he, hename⟩
        exact ⟨.inr he, hename⟩
      · rintro ⟨rfl | he, hename⟩
        · exact absurd hename hne
        · exact ⟨he, hename⟩
    | none =>
      rw [Option.none_or]
      constructor
      · intro h
        split_ifs at h with hname
        rw [Option.some.injEq] at h
        exact h ▸ ⟨.inl rfl, hname⟩
      · rintro ⟨rfl | he, hename⟩
        · rw [if_pos hename]
        · rw [(ih hnodup.2).mpr ⟨he, hename⟩] at hlast
          cases hlast

/-- The entries that children become. -/
def entriesOf (dirty : List Nat) (tree : Nat → Bytes) (children : List VfsNode) : List GitTreeEntry :=
  (children.filterMap (childEntry dirty tree)).map readBack

theorem Writable.entrant {n : VfsNode} (h : Writable n) : Entrant n := ⟨h.name.2, h.oid⟩

theorem mem_entriesOf {tree : Nat → Bytes} {children : List VfsNode} (hwritable : ∀ c ∈ children, Writable c)
    {e : GitTreeEntry} : e ∈ entriesOf dirty tree children ↔
      ∃ c ∈ children, childOid dirty tree c ≠ [] ∧ e = ⟨c.mode, c.name, childOid dirty tree c⟩ := by
  unfold entriesOf
  rw [List.mem_map]
  constructor
  · rintro ⟨x, hx, rfl⟩
    obtain ⟨c, hc, hce⟩ := List.mem_filterMap.mp hx
    obtain ⟨hne, hname, -, hoid⟩ := childEntry_oid (hwritable c hc).entrant hce
    refine ⟨c, hc, hne, ?_⟩
    unfold childEntry at hce
    rw [if_neg hne, Option.map_eq_some_iff] at hce
    obtain ⟨sha, -, rfl⟩ := hce
    rw [readBack, ← hoid, (hwritable c hc).mode]
  · rintro ⟨c, hc, hne, rfl⟩
    obtain ⟨sha, -, hsha⟩ := ((hwritable c hc).entrant.childOid dirty tree).resolve_left hne
    have hce : childEntry dirty tree c = some (c.mode, c.name, sha) := by
      rw [childEntry, if_neg hne, hsha, hexDecode_hexEncode, Option.map_some]
    refine ⟨_, List.mem_filterMap.mpr ⟨c, hc, hce⟩, ?_⟩
    rw [readBack, (hwritable c hc).mode, hsha]

theorem entriesOf_names {tree : Nat → Bytes} (children : List VfsNode) :
    ((entriesOf dirty tree children).map (·.name)).Sublist (children.map (·.name)) := by
  unfold entriesOf
  induction children with
  | nil => exact .slnil
  | cons c children ih =>
    rw [List.map_cons]
    cases hce : childEntry dirty tree c with
    | none =>
      rw [List.filterMap_cons_none hce]
      exact ih.cons _
    | some x =>
      rw [List.filterMap_cons_some hce, List.map_cons, List.map_cons]
      have hname : (readBack x).name = c.name := by
        unfold childEntry at hce
        split_ifs at hce
        obtain ⟨sha, -, rfl⟩ := Option.map_eq_some_iff.mp hce
        rfl
      rw [hname]
      exact ih.cons_cons _

section Entries

variable {tree : Nat → Bytes} {children : List VfsNode} (hwritable : ∀ c ∈ children, Writable c)
  (hnodup : (children.map (·.name)).Nodup)

include hwritable hnodup

/-- A child with an id is found by its name. -/
theorem lastEntry_child {c : VfsNode} (hc : c ∈ children) (hne : childOid dirty tree c ≠ []) :
    lastEntry (entriesOf dirty tree children) c.name = some ⟨c.mode, c.name, childOid dirty tree c⟩ := by
  rw [lastEntry_eq_some (hnodup.sublist (entriesOf_names children)), mem_entriesOf hwritable]
  exact ⟨⟨c, hc, hne, rfl⟩, rfl⟩

/-- A name that no child with an id has is not found. -/
theorem lastEntry_no_child {name : Str} (h : ∀ c ∈ children, c.name = name → childOid dirty tree c = []) :
    lastEntry (entriesOf dirty tree children) name = none := by
  cases hlast : lastEntry (entriesOf dirty tree children) name with
  | none => rfl
  | some e =>
    rw [lastEntry_eq_some (hnodup.sublist (entriesOf_names children)), mem_entriesOf hwritable] at hlast
    obtain ⟨⟨c, hc, hne, rfl⟩, hname⟩ := hlast
    exact absurd (h c hc hname) hne

end Entries

/-! ## The trees of a commit in the table -/

/-- Every one of the trees is in the table under its id. -/
def GitEngine.HoldsTrees (g : GitEngine) (trees : List Bytes) : Prop :=
  ∀ raw ∈ trees, ∃ t, g.getTree (computeGitSha1 .tree raw) = some t ∧ GitTree.parse raw = .ok t

/-- What the trees of a commit were written from, and the engine that they are read from later. -/
structure WrittenFrom (g g' : GitEngine) (staging : StagingStore) (dirty : List Nat) (w : VfsManager) : Prop where
  tidy : Tidy w
  noEntries : treeEntries g [] = []
  stamped : FilesStamped w
  kept : ∀ i n, w.getNode i = some n → staging.isDeleted i = false
  base : ∀ d n path, w.nodes d = some n → n.isDir = true → d ∉ dirty → n.oid ≠ [] →
    g'.fileIn n.oid path = g.fileIn n.oid path

namespace WrittenFrom

/-- The children of a directory that are written. -/
theorem mem_valid (h : WrittenFrom g g' staging dirty w) {d i : Nat} {name : Str} {c : VfsNode}
    (hname : isAppleMetadata name = false) (hlive : w.liveChild d name = some i) (hc : w.getNode i = some c) :
    c ∈ validChildren staging (w.listing d) := by
  obtain ⟨hmap, -⟩ := liveChild_eq_some.mp hlive
  obtain ⟨c', hc', -, hcname, -⟩ := liveChild_facts h.tidy.wellFormed hlive
  rw [hc, Option.some.injEq] at hc'
  subst hc'
  obtain ⟨-, ids, hids, hi⟩ := h.tidy.wellFormed.child d name i hmap
  rw [mem_validChildren, h.tidy.wellFormed.id_eq i c (getNode_eq_some.mp hc).1]
  refine ⟨List.mem_filterMap.mpr ⟨i, ?_, hc⟩, hcname ▸ hname, h.kept i c hc⟩
  rw [hids]
  exact hi

theorem live_of_valid (h : WrittenFrom g g' staging dirty w) {d : Nat} {c : VfsNode}
    (hc : c ∈ validChildren staging (w.listing d)) : w.liveChild d c.name = some c.id ∧ w.getNode c.id = some c := by
  obtain ⟨i, ids, hids, hi, hnode⟩ := mem_listing (mem_validChildren.mp hc).1
  obtain ⟨hn, hlive⟩ := getNode_eq_some.mp hnode
  obtain ⟨m, hroot, hm, hparent⟩ := (h.tidy.wellFormed.listed d ids hids).2.2 i hi
  rw [hn, Option.some.injEq] at hm
  subst hm
  have hmap := h.tidy.attached i c hn hlive hroot
  rw [hparent] at hmap
  rw [h.tidy.wellFormed.id_eq i c hn]
  exact ⟨liveChild_eq_some.mpr ⟨hmap, c, hnode⟩, hnode⟩

theorem valid_writable (h : WrittenFrom g g' staging dirty w) {d : Nat} :
    (∀ c ∈ validChildren staging (w.listing d), Writable c) ∧
      ((validChildren staging (w.listing d)).map (·.name)).Nodup := by
  have hwritable : ∀ c ∈ w.listing d, Writable c := fun c hc => listing_each h.tidy.wellFormed h.tidy.each hc
  refine ⟨fun c hc => hwritable c (mem_validChildren.mp hc).1, ?_⟩
  refine (validChildren_strict staging (fun c hc => (hwritable c hc).name.1) ?_).1
  unfold VfsManager.listing
  cases hids : w.dirChildren d with
  | none => simp
  | some ids => exact h.tidy.attached.names_nodup h.tidy.wellFormed hids

/-- A directory that is written has in the commit what is below it. -/
theorem fileIn_written (h : WrittenFrom g g' staging dirty w) {fuel d : Nat} (hdeep : Deep staging dirty w fuel d)
    {path : List Str} (htrees : g'.HoldsTrees (committedTrees staging dirty w fuel d)) (hpath : PlainPath path) :
    g'.fileIn (computeGitSha1 .tree ((committedTrees staging dirty w fuel d).headD [])) path =
      committedFile g w dirty d path := by
  induction hdeep generalizing path with
  | @dir fuel d hchildren ih =>
    cases path with
    | nil => rfl
    | cons name path =>
      have hname := hpath name List.mem_cons_self
      have hrest : PlainPath path := fun part hpart => hpath part (List.mem_cons_of_mem _ hpart)
      obtain ⟨hwritable, hnodup⟩ := h.valid_writable (d := d)
      rw [committedFile, GitEngine.fileIn]
      cases hdots : isDots name with
      | true => rfl
      | false =>
        rw [if_neg Bool.false_ne_true, if_neg Bool.false_ne_true]
        -- the entries of the tree are those of the children
        have hentries : treeEntries g' (computeGitSha1 .tree ((committedTrees staging dirty w (fuel + 1) d).headD [])) =
            entriesOf dirty (fun id => (committedTrees staging dirty w fuel id).headD [])
              (validChildren staging (w.listing d)) := by
          obtain ⟨t, ht, hparse⟩ := htrees _ (Deep.dir hchildren).head_mem
          rw [treeEntries, ht]
          rw [committedTrees, List.headD_cons, parse_rawTree _ fun e he => ?_, Except.ok.injEq] at hparse
          · rw [← hparse]
            rfl
          · obtain ⟨c, hc, hce⟩ := List.mem_filterMap.mp he
            obtain ⟨-, hcname, hlen, -⟩ := childEntry_oid (hwritable c hc).entrant hce
            exact ⟨hcname ▸ (hwritable c hc).name.2, hlen⟩
        rw [hentries]
        cases hlive : w.liveChild d name with
        | none =>
          rw [lastEntry_no_child hwritable hnodup fun c hc hcname => ?_]
          · rfl
          · rw [← hcname, (h.live_of_valid hc).1] at hlive
            cases hlive
        | some i =>
          obtain ⟨c, hc, hparent, hcname, hroot⟩ := liveChild_facts h.tidy.wellFormed hlive
          obtain ⟨hnode, -⟩ := getNode_eq_some.mp hc
          have hid := h.tidy.wellFormed.id_eq i c hnode
          have hvalid := h.mem_valid hname hlive hc
          have hkind := (hwritable c hvalid).isDir
          rw [Option.bind_some, hnode, Option.bind_some]
          by_cases hdirty : (c.isDir && dirty.contains c.id) = true
          · obtain ⟨hcdir, hmem⟩ := Bool.and_eq_true_iff.mp hdirty
            rw [hid] at hmem
            have hoid : childOid dirty (fun id => (committedTrees staging dirty w fuel id).headD []) c =
                computeGitSha1 .tree ((committedTrees staging dirty w fuel c.id).headD []) := by
              rw [childOid, if_pos hdirty]
            rw [← hcname, lastEntry_child hwritable hnodup hvalid (hoid ▸ (computeGitSha1_isOid _ _).ne_nil),
              Option.bind_some, hoid, if_pos (hkind ▸ hcdir), if_pos hcdir, if_pos hmem,
              ih c hvalid hdirty (fun raw hraw => htrees raw (mem_committedTrees_of_child hvalid hdirty hraw)) hrest, hid]
          · have hoid : childOid dirty (fun id => (committedTrees staging dirty w fuel id).headD []) c = c.oid := by
              rw [childOid, if_neg hdirty]
            by_cases hcdir : c.isDir = true
            · rw [hcdir, Bool.true_and, hid] at hdirty
              have hclean : i ∉ dirty := fun hmem => hdirty (List.contains_iff_mem.mpr hmem)
              rw [if_pos hcdir, if_neg hdirty]
              by_cases hempty : c.oid = []
              · rw [lastEntry_no_child hwritable hnodup fun c' hc' hcname' => ?_, hempty,
                  fileIn_of_noEntries h.noEntries, Option.bind_none]
                obtain ⟨hlive', hc''⟩ := h.live_of_valid hc'
                rw [hcname', hlive, Option.some.injEq] at hlive'
                rw [← hlive', hc, Option.some.injEq] at hc''
                rw [← hc'', hoid, hempty]
              · rw [← hcname, lastEntry_child hwritable hnodup hvalid (hoid ▸ hempty), Option.bind_some, hoid,
                  if_pos (hkind ▸ hcdir), h.base i c path hnode hcdir hclean hempty]
            · have hfile := Bool.eq_false_iff.mpr hcdir
              have hne := h.stamped i c hc hfile (hcname ▸ hname)
              rw [if_neg hcdir, ← hcname, lastEntry_child hwritable hnodup hvalid (hoid ▸ hne), Option.bind_some, hoid,
                if_neg (hkind ▸ hcdir)]

end WrittenFrom

end GitNfs
