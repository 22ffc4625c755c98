import GitNfs.Nfs.Frames
import GitNfs.Vfs.WayBack

/-! # Paths that an operation spares

What a path leads to is seen as before, and an inode that it gets is new. Where the path led nowhere there is at
most an empty directory now. Following paths and making the directories above a name spare every path; creating,
removing and moving spare those that are not at or below the names.
-/

namespace GitNfs

namespace VfsManager

/-- One place after another: seen as before, with the same inode or with a new one. -/
structure SeenAs (v w : VfsManager) (a b : Place) : Prop where
  seen : ∃ s s', v.shown a = some s ∧ w.shown b = some s' ∧ s.Keeps s'
  inode : ∀ i, b = .node i → a = .node i ∨ v.nodes i = none

/-- A directory without a tree of the base. -/
def EmptyDir (v : VfsManager) (a : Place) : Prop := ∃ s, v.shown a = some s ∧ s.isDir = true ∧ s.oid = []

structure Spares (g : GitEngine) (v w : VfsManager) (path : List Str) : Prop where
  nodes : ∀ i n, v.nodes i = some n → ∃ n', w.nodes i = some n'
  place : ∀ a, placeAt g v path = some a → ∃ b, placeAt g w path = some b ∧ SeenAs v w a b
  back : ∀ b, placeAt g w path = some b → (∃ a, placeAt g v path = some a) ∨ EmptyDir w b

variable {g : GitEngine} {u v w : VfsManager} {path : List Str}

theorem SeenAs.node {d : Nat} {b : Place} (h : SeenAs v w (.node d) b) : b = .node d := by
  obtain ⟨s, s', hs, hs', hkeeps⟩ := h.seen
  obtain ⟨n, -, rfl⟩ := Option.map_eq_some_iff.mp hs
  have hinode := hkeeps.inode d rfl
  cases b with
  | entry e =>
    rw [← Option.some.inj hs'] at hinode
    cases hinode
  | node j =>
    obtain ⟨n', -, rfl⟩ := Option.map_eq_some_iff.mp hs'
    exact congrArg Place.node (Option.some.inj hinode)

theorem shown_of_known {a : Place} (h : v.Known a) : ∃ s, v.shown a = some s := by
  cases a with
  | entry e => exact ⟨_, rfl⟩
  | node i =>
    obtain ⟨n, hn⟩ := h
    exact ⟨⟨some i, n.mode, n.isDir, n.oid⟩, by simp only [shown, hn, Option.map_some]⟩

theorem placeAt_known (hv : v.WellFormed) {a : Place} (h : placeAt g v path = some a) : v.Known a :=
  placeFrom_known (Fs.rootKnown hv) h

namespace Spares

theorem refl (hv : v.WellFormed) : Spares g v v path where
  nodes := fun i n hn => ⟨n, hn⟩
  place := fun a ha => by
    obtain ⟨s, hs⟩ := shown_of_known (placeAt_known hv ha)
    exact ⟨a, ha, ⟨s, s, hs, hs, fun _ h => h, rfl, rfl, rfl⟩, fun i hi => .inl hi⟩
  back := fun b hb => .inl ⟨b, hb⟩

theorem trans (h : Spares g u v path) (h' : Spares g v w path) : Spares g u w path where
  nodes := fun i n hn => by
    obtain ⟨n', hn'⟩ := h.nodes i n hn
    exact h'.nodes i n' hn'
  place := fun a ha => by
    obtain ⟨b, hb, ⟨s, s₁, hs, hs₁, hk⟩, hinode⟩ := h.place a ha
    obtain ⟨c, hc, ⟨s₁', s₂, hs₁', hs₂, hk'⟩, hinode'⟩ := h'.place b hb
    rw [hs₁, Option.some.injEq] at hs₁'
    subst hs₁'
    refine ⟨c, hc, ⟨s, s₂, hs, hs₂, hk.trans hk'⟩, fun i hi => ?_⟩
    rcases hinode' i hi with hsame | hnew
    · exact hinode i hsame
    · right
      by_contra hne
      obtain ⟨n, hn⟩ := Option.ne_none_iff_exists'.mp hne
      obtain ⟨n', hn'⟩ := h.nodes i n hn
      rw [hnew] at hn'
      cases hn'
  back := fun c hc => by
    rcases h'.back c hc with ⟨b, hb⟩ | hempty
    · refine (h.back b hb).imp_right fun ⟨s, hs, hdir, hoid⟩ => ?_
      obtain ⟨c', hc', ⟨s', s'', hs', hs'', hk⟩, -⟩ := h'.place b hb
      rw [hc, Option.some.injEq] at hc'
      rw [hs, Option.some.injEq] at hs'
      subst hc' hs'
      exact ⟨s'', hs'', hk.isDir.trans hdir, hk.oid.trans hoid⟩
    · exact .inr hempty

theorem of_tracks (hv : v.WellFormed) (h : Tracks g v w) : Spares g v w path where
  nodes := fun i n hn => ⟨n, h.nodes i n hn⟩
  place := fun a ha => by
    obtain ⟨root, hroot, -⟩ := hv.root
    have hrel := h.place (.node hroot) path
    rw [show placeFrom g v (.node rootInode) path = _ from ha] at hrel
    obtain ⟨b, hb, hbecomes⟩ := Walk.rel_some_left hrel
    have hshown := h.shown hbecomes
    obtain ⟨s, hs⟩ := shown_of_known (placeAt_known hv ha)
    rw [hs] at hshown
    obtain ⟨s', hs', hk⟩ := Walk.rel_some_left hshown
    refine ⟨b, hb, ⟨s, s', hs, hs', hk⟩, fun i hi => ?_⟩
    subst hi
    cases hbecomes with
    | node _ => exact .inl rfl
    | made hnew _ _ => exact .inr hnew
  back := fun b hb => by
    obtain ⟨root, hroot, -⟩ := hv.root
    have hrel := h.place (.node hroot) path
    rw [show placeFrom g w (.node rootInode) path = _ from hb] at hrel
    obtain ⟨a, ha, -⟩ := Walk.rel_some_right hrel
    exact .inl ⟨a, ha⟩

theorem of_edits (hv : v.WellFormed) {cut : Nat → Str → Prop} (h : Edits cut v w)
    (havoid : Walk.Avoids (childAt g v) (cutAt cut) (.node rootInode) path) : Spares g v w path where
  nodes := fun i n hn => by
    obtain ⟨n', hn', -⟩ := h.nodes i n hn
    exact ⟨n', hn'⟩
  place := fun a ha => by
    have hknown := placeAt_known hv ha
    have hsame : placeAt g w path = some a := (h.place (Fs.rootKnown hv) havoid).trans ha
    obtain ⟨s, hs⟩ := shown_of_known hknown
    have hshown := h.shown hknown
    rw [hs] at hshown
    obtain ⟨s', hs', hk⟩ := Walk.rel_some_left hshown
    exact ⟨a, hsame, ⟨s, s', hs, hs', hk⟩, fun i hi => .inl hi⟩
  back := fun b hb => .inl ⟨b, (h.place (Fs.rootKnown hv) havoid).symm.trans hb⟩

/-- An inode stays where it is. -/
theorem node (h : Spares g v w path) {d : Nat} (hd : placeAt g v path = some (.node d)) :
    placeAt g w path = some (.node d) := by
  obtain ⟨b, hb, hseen⟩ := h.place _ hd
  rw [hb, hseen.node]

end Spares

/-! ## Following a path -/

theorem ensureDirPopulated_spares (hv : v.WellFormed) (d : Nat) : Spares g v (v.ensureDirPopulated g d).2 path :=
  .of_tracks hv (ensureDirPopulated_tracks hv d)

theorem lookup_spares (hv : v.WellFormed) (d : Nat) (name : Str) : Spares g v (v.lookup g d name).2 path := by
  rcases lookup_state (g := g) hv d name with heq | heq <;> rw [heq]
  · exact .refl hv
  · exact ensureDirPopulated_spares hv d

/-- The path of a directory and a name that was found in it. -/
theorem placeAt_found (hv : v.WellFormed) {d i : Nat} {name : Str} (hd : placeAt g v path = some (.node d))
    (hdots : isDots name = false) (hlive : v.liveChild d name = some i) :
    placeAt g v (path ++ [name]) = some (.node i) := by
  rw [placeAt, placeFrom, Walk.walk_concat]
  rw [placeAt, placeFrom] at hd
  rw [hd, Option.bind_some, childAt_live hv hdots hlive]

theorem lookup_place (hv : v.WellFormed) {d i : Nat} {name : Str} (hd : placeAt g v path = some (.node d))
    (hdots : isDots name = false) (h : v.lookup g d name = (.ok i, w)) :
    placeAt g w (path ++ [name]) = some (.node i) := by
  have hw := hv.lookup (g := g) d name
  have hspares : Spares g v (v.lookup g d name).2 path := lookup_spares hv d name
  rw [h] at hw hspares
  exact placeAt_found hw (hspares.node hd) hdots (lookup_found hdots h)

theorem lookupParts_spares (hv : v.WellFormed) (curr : Nat) (parts : List Str) :
    Spares g v (v.lookupParts g curr parts).2 path := by
  induction parts generalizing v curr with
  | nil => exact .refl hv
  | cons part parts ih =>
    rw [lookupParts]
    split_ifs
    · exact ih hv curr
    · have hlookup : Spares g v (v.lookup g curr part).2 path := lookup_spares hv curr part
      have hv' := hv.lookup (g := g) curr part
      rcases hpart : v.lookup g curr part with ⟨_ | id, w⟩ <;> rw [hpart] at hlookup hv'
      · exact hlookup
      · exact hlookup.trans (ih hv' id)

theorem lookupParts_place (hv : v.WellFormed) {curr i : Nat} {parts : List Str}
    (hparts : ∀ part ∈ parts, part ≠ [] ∧ isDots part = false) (hcurr : placeAt g v path = some (.node curr))
    (h : v.lookupParts g curr parts = (.ok i, w)) : placeAt g w (path ++ parts) = some (.node i) := by
  induction parts generalizing v curr path with
  | nil =>
    simp only [lookupParts, Prod.mk.injEq, Except.ok.injEq] at h
    obtain ⟨rfl, rfl⟩ := h
    rwa [List.append_nil]
  | cons part parts ih =>
    obtain ⟨hne, hdots⟩ := hparts part List.mem_cons_self
    rw [lookupParts, if_neg (by simp [hne, (isDots_eq_false.mp hdots).1])] at h
    have hv' := hv.lookup (g := g) curr part
    rcases hpart : v.lookup g curr part with ⟨_ | id, v₁⟩ <;> rw [hpart] at h hv'
    · simp at h
    · have hplace := lookup_place hv hcurr hdots hpart
      have hrest := ih hv' (fun p hp => hparts p (List.mem_cons_of_mem _ hp)) hplace h
      rwa [List.append_assoc, List.singleton_append] at hrest

theorem lookupPath_spares (hv : v.WellFormed) (p : Str) : Spares g v (v.lookupPath g p).2 path := by
  rw [lookupPath_eq]
  exact lookupParts_spares hv _ _

theorem lookupPath_place (hv : v.WellFormed) {p : Str} {i : Nat} (hdots : ∀ part ∈ components p, isDots part = false)
    (h : v.lookupPath g p = (.ok i, w)) : placeAt g w (components p) = some (.node i) := by
  rw [lookupPath_eq] at h
  have hroot : placeAt g v [] = some (.node rootInode) := rfl
  exact lookupParts_place hv (fun part hpart => ⟨(mem_components hpart).1, hdots part hpart⟩) hroot h

theorem not_prefix_concat (above : List Str) (name : Str) : ¬ above ++ [name] <+: above := by
  intro h
  have hlen := h.length_le
  rw [List.length_append, List.length_singleton] at hlen
  omega

/-- A path that is not at or below a name does not take it. -/
theorem avoids_name (hv : v.WellFormed) {cut : Nat → Str → Prop}
    (hcut : ∀ d name, cut d name → ∃ above, placeAt g v above = some (.node d) ∧ ¬ above ++ [name] <+: path) :
    Walk.Avoids (childAt g v) (cutAt cut) (.node rootInode) path := by
  refine Fs.avoids_cut fun d name named hc hnamed hprefix => ?_
  obtain ⟨above, habove, hout⟩ := hcut d name hc
  obtain ⟨done, rfl, hdone⟩ := hnamed
  rw [placeAt_unique hv hdone habove] at hprefix
  exact hout hprefix

/-! ## Making what is not there -/

theorem placeFrom_childless {i : Nat} {path : List Str} {a : Place} (hlist : v.dirChildren i = some [])
    (hfree : ∀ name, v.childMap (i, name) = none) (h : placeFrom g v (.node i) path = some a) : a = .node i := by
  cases path with
  | nil => exact (Option.some.inj h).symm
  | cons name path =>
    rw [placeFrom, Walk.walk] at h
    obtain ⟨b, hb, -⟩ := Option.bind_eq_some_iff.mp h
    cases hdots : isDots name with
    | true =>
      rw [childAt_dots hdots] at hb
      cases hb
    | false =>
      rw [childAt_listed hdots hlist, liveChild_of_unmapped (hfree name)] at hb
      cases hb

theorem mkdir_oid {d : Nat} {name : Str} {node : VfsNode} (h : v.mkdir g d name = (.ok node, w)) : node.oid = [] := by
  unfold mkdir at h
  split at h
  · simp at h
  · simp only [Prod.mk.injEq, Except.ok.injEq] at h
    exact h.1 ▸ rfl

/-- A new directory under a name without a child. -/
theorem mkdir_spares (hv : v.WellFormed) {d : Nat} {name : Str} {above : List Str}
    (hd : placeAt g v above = some (.node d)) (hdots : isDots name = false)
    (hfree : (v.ensureDirPopulated g d).2.liveChild d name = none) : Spares g v (v.mkdir g d name).2 path := by
  have hpop (path : List Str) : Spares g v (v.ensureDirPopulated g d).2 path := ensureDirPopulated_spares hv d
  have hw := hv.mkdir (g := g) d name
  rcases hres : v.mkdir g d name with ⟨e | node, w⟩
  · unfold mkdir at hres
    split at hres
    · rename_i heq
      simp only [Prod.mk.injEq] at hres
      rw [heq, hres.2] at hpop
      exact hpop path
    · simp at hres
  · rw [hres] at hw
    obtain ⟨v₁, heq, hmade⟩ := mkdir_made hv hres
    have hv₁ := (hv.ensureDirPopulated_ok heq).1
    rw [heq] at hpop hfree
    obtain ⟨ids, hids⟩ := hmade.listed
    have hd₁ := (hpop above).node hd
    have hcut {path : List Str} (hout : ¬ above ++ [name] <+: path) : Spares g v₁ w path := by
      refine .of_edits hv₁ hmade.edits (avoids_name hv₁ ?_)
      rintro d' name' ⟨rfl, rfl, -⟩
      exact ⟨above, hd₁, hout⟩
    refine (hpop path).trans ?_
    by_cases hbelow : above ++ [name] <+: path
    · -- the path led nowhere, and leads no further than to the new directory
      obtain ⟨rest, rfl⟩ := hbelow
      have hnone : placeAt g v₁ (above ++ [name] ++ rest) = none := by
        rw [placeAt, placeFrom, Walk.walk_append, Walk.walk_concat]
        rw [placeAt, placeFrom] at hd₁
        rw [hd₁, Option.bind_some, childAt_listed hdots hids, hfree]
        rfl
      have hhere : placeAt g w (above ++ [name]) = some (.node node.id) := by
        have habove : Spares g v₁ w above := hcut (not_prefix_concat above name)
        exact placeAt_found hw (habove.node hd₁) hdots hmade.child
      refine ⟨fun i n hn => ?_, fun a ha => ?_, fun b hb => .inr ?_⟩
      · obtain ⟨n', hn', -⟩ := hmade.edits.nodes i n hn
        exact ⟨n', hn'⟩
      · rw [hnone] at ha
        cases ha
      · rw [placeAt, placeFrom, Walk.walk_append] at hb
        rw [placeAt, placeFrom] at hhere
        rw [hhere, Option.bind_some] at hb
        rw [placeFrom_childless hmade.empty.1 hmade.empty.2 hb]
        refine ⟨⟨some node.id, node.mode, node.isDir, node.oid⟩, ?_, hmade.isDir, mkdir_oid hres⟩
        simp only [shown, hmade.here, Option.map_some]
    · exact hcut hbelow

theorem mkdir_place (hv : v.WellFormed) {d : Nat} {name : Str} {node : VfsNode}
    (hd : placeAt g v path = some (.node d)) (hdots : isDots name = false)
    (hfree : (v.ensureDirPopulated g d).2.liveChild d name = none) (h : v.mkdir g d name = (.ok node, w)) :
    placeAt g w (path ++ [name]) = some (.node node.id) := by
  have hw := hv.mkdir (g := g) d name
  have hspares : Spares g v (v.mkdir g d name).2 path := mkdir_spares hv hd hdots hfree
  rw [h] at hw hspares
  obtain ⟨v₁, -, hmade⟩ := mkdir_made hv h
  exact placeAt_found hw (hspares.node hd) hdots hmade.child

theorem ensureDirs_spares (hv : v.WellFormed) {curr : Nat} {parts above : List Str}
    (hparts : ∀ part ∈ parts, isDots part = false) (hcurr : placeAt g v above = some (.node curr)) :
    Spares g v (v.ensureDirs g curr parts).2 path := by
  induction parts generalizing v curr above with
  | nil => exact .refl hv
  | cons part parts ih =>
    have hdots := hparts part List.mem_cons_self
    have hrest := fun p hp => hparts p (List.mem_cons_of_mem part hp)
    have hlookup (path : List Str) : Spares g v (v.lookup g curr part).2 path := lookup_spares hv curr part
    have hv' := hv.lookup (g := g) curr part
    rw [ensureDirs]
    rcases hpart : v.lookup g curr part with ⟨e | id, v₁⟩ <;> rw [hpart] at hlookup hv' <;> simp only
    · have hfree := lookup_error hv hpart
      have hcurr₁ := (hlookup above).node hcurr
      have hmade : Spares g v₁ (v₁.mkdir g curr part).2 path := mkdir_spares hv' hcurr₁ hdots hfree
      have hv'' := hv'.mkdir (g := g) curr part
      rcases hdir : v₁.mkdir g curr part with ⟨e' | node, v₂⟩ <;> rw [hdir] at hmade hv'' <;> simp only
      · exact (hlookup path).trans hmade
      · exact ((hlookup path).trans hmade).trans (ih hv'' hrest (mkdir_place hv' hcurr₁ hdots hfree hdir))
    · exact (hlookup path).trans (ih hv' hrest (lookup_place hv hcurr hdots hpart))

theorem ensureDirs_place (hv : v.WellFormed) {curr i : Nat} {parts : List Str}
    (hparts : ∀ part ∈ parts, isDots part = false) (hcurr : placeAt g v path = some (.node curr))
    (h : v.ensureDirs g curr parts = (.ok i, w)) : placeAt g w (path ++ parts) = some (.node i) := by
  induction parts generalizing v curr path with
  | nil =>
    simp only [ensureDirs, Prod.mk.injEq, Except.ok.injEq] at h
    obtain ⟨rfl, rfl⟩ := h
    rwa [List.append_nil]
  | cons part parts ih =>
    have hdots := hparts part List.mem_cons_self
    have hrest := fun p hp => hparts p (List.mem_cons_of_mem part hp)
    have hlookup : Spares g v (v.lookup g curr part).2 path := lookup_spares hv curr part
    have hv' := hv.lookup (g := g) curr part
    rw [ensureDirs] at h
    rcases hpart : v.lookup g curr part with ⟨e | id, v₁⟩ <;> rw [hpart] at hlookup hv' h <;> simp only at h
    · have hfree := lookup_error hv hpart
      have hv'' := hv'.mkdir (g := g) curr part
      rcases hdir : v₁.mkdir g curr part with ⟨e' | node, v₂⟩ <;> rw [hdir] at hv'' h <;> simp only at h
      · simp at h
      · have hplace := mkdir_place hv' (hlookup.node hcurr) hdots hfree hdir
        have hall := ih hv'' hrest hplace h
        rwa [List.append_assoc, List.singleton_append] at hall
    · have hall := ih hv' hrest (lookup_place hv hcurr hdots hpart) h
      rwa [List.append_assoc, List.singleton_append] at hall

theorem ensureParentDirs_spares (hv : v.WellFormed) {p : Str} (hdots : ∀ part ∈ components p, isDots part = false) :
    Spares g v (v.ensureParentDirs g p).2 path := by
  have hroot : placeAt g v [] = some (.node rootInode) := rfl
  have hdirs : Spares g v (v.ensureDirs g rootInode (components (trimMatches '/' p)).dropLast).2 path := by
    rw [components_trimMatches]
    exact ensureDirs_spares hv (fun part hpart => hdots part (List.dropLast_subset _ hpart)) hroot
  unfold ensureParentDirs
  simp only
  split
  · exact .refl hv
  · split <;> rename_i heq <;> rwa [heq] at hdirs

/-- The directory that is made for a path stands at all but its last name. -/
theorem ensureParentDirs_place (hv : v.WellFormed) {p name : Str} {d : Nat}
    (hdots : ∀ part ∈ components p, isDots part = false) (h : v.ensureParentDirs g p = (.ok (d, name), w)) :
    ∃ above, components p = above ++ [name] ∧ placeAt g w above = some (.node d) ∧ isDots name = false := by
  unfold ensureParentDirs at h
  simp only [components_trimMatches] at h
  split at h
  · simp at h
  · rename_i basename hlast
    split at h
    · simp at h
    · rename_i dirId v₁ hdirs
      simp only [Prod.mk.injEq, Except.ok.injEq] at h
      obtain ⟨⟨rfl, rfl⟩, rfl⟩ := h
      have hroot : placeAt g v [] = some (.node rootInode) := rfl
      have hplace := ensureDirs_place hv (fun part hpart => hdots part (List.dropLast_subset _ hpart)) hroot hdirs
      exact ⟨(components p).dropLast, (List.dropLast_append_getLast? basename hlast).symm, hplace,
        hdots basename (List.mem_of_getLast? hlast)⟩

theorem createFile_spares (hv : v.WellFormed) {d : Nat} {name : Str} {above : List Str}
    (hd : placeAt g v above = some (.node d)) (hout : ¬ above ++ [name] <+: path) (mode : TreeEntryMode) :
    Spares g v (v.createFile g d name mode).2 path := by
  have hpop (path : List Str) : Spares g v (v.ensureDirPopulated g d).2 path := ensureDirPopulated_spares hv d
  rcases hres : v.createFile g d name mode with ⟨e | node, w⟩
  · unfold createFile at hres
    split at hres
    · rename_i heq
      simp only [Prod.mk.injEq] at hres
      rw [heq, hres.2] at hpop
      exact hpop path
    · split at hres <;> simp at hres
  · obtain ⟨v₁, heq, hmade⟩ := createFile_created hv hres
    have hv₁ := (hv.ensureDirPopulated_ok heq).1
    rw [heq] at hpop
    refine (hpop path).trans (.of_edits hv₁ hmade.edits (avoids_name hv₁ ?_))
    rintro d' name' ⟨⟨rfl, rfl, -⟩, -⟩
    exact ⟨above, (hpop above).node hd, hout⟩

theorem createFile_place (hv : v.WellFormed) {d : Nat} {name : Str} {mode : TreeEntryMode} {node : VfsNode}
    (hd : placeAt g v path = some (.node d)) (hdots : isDots name = false)
    (h : v.createFile g d name mode = (.ok node, w)) : placeAt g w (path ++ [name]) = some (.node node.id) := by
  have hw := hv.createFile (g := g) d name mode
  have hspares : Spares g v (v.createFile g d name mode).2 path :=
    createFile_spares hv hd (not_prefix_concat path name) mode
  rw [h] at hw hspares
  obtain ⟨v₁, -, hmade⟩ := createFile_created hv h
  exact placeAt_found hw (hspares.node hd) hdots hmade.child

theorem updateFileSize_spares (hv : v.WellFormed) (id size : Nat) : Spares g v (v.updateFileSize id size) path :=
  .of_edits hv (updateFileSize_edits v id size).1 <| (Walk.avoids_iff _ _).mpr fun _ _ _ a _ _ hc => by
    cases a <;> exact hc

/-! ## Removing and moving -/

theorem remove_spares (hv : v.WellFormed) {d : Nat} {name : Str} {above : List Str}
    (hd : placeAt g v above = some (.node d)) (hout : ¬ above ++ [name] <+: path) :
    Spares g v (v.remove g d name).2 path := by
  have hpop (path : List Str) : Spares g v (v.ensureDirPopulated g d).2 path := ensureDirPopulated_spares hv d
  rcases hres : v.remove g d name with ⟨e | node, w⟩
  · obtain ⟨e', -, heq⟩ | ⟨v₁, i, n, -, -, -, heq⟩ := remove_cases g v d name
    · rw [hres] at heq
      exact heq ▸ hpop path
    · rw [hres] at heq
      cases heq
  · obtain ⟨v₁, heq, hgone⟩ := remove_removed hv hres
    rw [heq] at hpop
    refine (hpop path).trans (.of_edits hgone.wellFormed hgone.edits (avoids_name hgone.wellFormed ?_))
    rintro d' name' ⟨rfl, rfl, -⟩
    exact ⟨above, (hpop above).node hd, hout⟩

theorem rename_spares (hv : v.WellFormed) {fd td : Nat} {fn tn : Str} {fromAbove toAbove : List Str}
    (hfrom : placeAt g v fromAbove = some (.node fd)) (hto : placeAt g v toAbove = some (.node td))
    (hfromOut : ¬ fromAbove ++ [fn] <+: path) (htoOut : ¬ toAbove ++ [tn] <+: path) :
    Spares g v (v.rename g fd fn td tn).2 path := by
  have hv₁ := hv.ensureDirPopulated (g := g) fd
  have hpop (path : List Str) : Spares g v (v.ensureDirPopulated g fd).2 path := ensureDirPopulated_spares hv fd
  have hboth (path : List Str) :
      Spares g v ((v.ensureDirPopulated g fd).2.ensureDirPopulated g td).2 path :=
    (hpop path).trans (ensureDirPopulated_spares hv₁ td)
  rcases hres : v.rename g fd fn td tn with ⟨e | _, w⟩
  · obtain ⟨e', -, heq | heq⟩ | ⟨v₁, v₂, i, n, -, -, -, -, heq⟩ := rename_cases g v fd fn td tn <;>
      rw [hres] at heq
    · exact heq ▸ hpop path
    · exact heq ▸ hboth path
    · cases heq
  · have hren : v.rename g (fd, fn).1 (fd, fn).2 (td, tn).1 (td, tn).2 = (.ok (), w) := hres
    obtain ⟨i, n, hmoved⟩ := rename_renamed hv hren
    refine (hboth path).trans (.of_edits hmoved.wellFormed hmoved.edits (avoids_name hmoved.wellFormed ?_))
    rintro d name (heq | heq) <;> cases heq
    · exact ⟨fromAbove, (hboth fromAbove).node hfrom, hfromOut⟩
    · exact ⟨toAbove, (hboth toAbove).node hto, htoOut⟩

end VfsManager

end GitNfs
