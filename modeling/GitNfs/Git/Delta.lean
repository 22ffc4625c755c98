import GitNfs.Git.Pack

/-! # Deltas that are cut

A delta says itself how long its result is, so no proper beginning of it is a delta.
-/

namespace GitNfs

open Reading

theorem copyArg_reads (op : UInt8) (bits : List (Nat × Nat)) : Reads (copyArg op bits) := by
  induction bits with
  | nil => exact Reads.pure _
  | cons b more ih =>
    obtain ⟨bit, shift⟩ := b
    by_cases hbit : op.toNat.testBit bit
    · refine Reads.cons (e := .deltaTruncated) (by rw [copyArg, if_pos hbit]) fun c => ?_
      refine Reads.andThen ih (fun arg => Reads.pure (c.toNat <<< shift ||| arg)) ?_ ?_
      · intro s e hs
        exact ⟨e, by rw [copyArg, if_pos hbit]; simp only [hs]⟩
      · intro s arg rest hs
        rw [copyArg, if_pos hbit]
        simp only [hs]
    · have hskip : copyArg op ((bit, shift) :: more) = copyArg op more := by
        funext s
        rw [copyArg.eq_def]
        simp only [if_neg hbit]
      rw [hskip]
      exact ih

/-- How many bytes an opcode adds, which its base has no say in. -/
def opLength (op : UInt8) (delta : Bytes) : Except PackError (Nat × Bytes) :=
  if 128 ≤ op.toNat then
    match copyArg op [(0, 0), (1, 8), (2, 16), (3, 24)] delta with
    | .error e => .error e
    | .ok (_, delta) =>
      match copyArg op [(4, 0), (5, 8), (6, 16)] delta with
      | .error e => .error e
      | .ok (size, delta) => .ok (if size = 0 then 0x10000 else size, delta)
  else if delta.length < op.toNat then .error .insertRange
  else .ok (op.toNat, delta.drop op.toNat)

theorem opLength_reads (op : UInt8) : Reads (opLength op) := by
  by_cases hcopy : 128 ≤ op.toNat
  · refine Reads.andThen (copyArg_reads op [(0, 0), (1, 8), (2, 16), (3, 24)])
      (g := fun _ delta => match copyArg op [(4, 0), (5, 8), (6, 16)] delta with
        | .error e => .error e
        | .ok (size, delta) => .ok (if size = 0 then 0x10000 else size, delta)) (fun _ => ?_) ?_ ?_
    · refine Reads.andThen (copyArg_reads op [(4, 0), (5, 8), (6, 16)])
        (fun size => Reads.pure (if size = 0 then 0x10000 else size)) ?_ ?_
      · intro s e hs
        exact ⟨e, by simp only [hs]⟩
      · intro s size rest hs
        simp only [hs]
    · intro s e hs
      exact ⟨e, by rw [opLength, if_pos hcopy]; simp only [hs]⟩
    · intro s off rest hs
      rw [opLength, if_pos hcopy]
      simp only [hs]
  · intro s n rest h
    rw [opLength, if_neg hcopy] at h
    split_ifs at h with hshort
    obtain ⟨rfl, rfl⟩ := Prod.mk.inj (Except.ok.inj h)
    have hlen : (s.take op.toNat).length = op.toNat := by
      rw [List.length_take]
      omega
    refine ⟨s.take op.toNat, (List.take_append_drop _ s).symm, fun t => ?_⟩
    rw [opLength, if_neg hcopy, if_neg (by rw [List.length_append]; omega), List.drop_left' hlen]

theorem applyOp_length {base delta added rest : Bytes} {op : UInt8}
    (h : applyOp base op delta = .ok (added, rest)) :
    opLength op delta = .ok (added.length, rest) ∧ 0 < added.length := by
  rw [applyOp, applyInsert] at h
  rw [opLength]
  split_ifs at h ⊢ with hcopy hshort hinsert
  · rw [applyCopy] at h
    split at h
    · exact absurd h (by simp)
    · rename_i off delta₁ hoff
      split at h
      · exact absurd h (by simp)
      · rename_i size delta₂ hsize
        simp only at h
        split_ifs at h with hzero hrange hrange
        · obtain ⟨rfl, rfl⟩ := Prod.mk.inj (Except.ok.inj h)
          have hlen : ((base.drop off).take 0x10000).length = 0x10000 := by
            rw [List.length_take, List.length_drop]
            omega
          rw [hlen]
          simp only [hoff, hsize, hzero, if_true]
          exact ⟨trivial, by decide⟩
        · obtain ⟨rfl, rfl⟩ := Prod.mk.inj (Except.ok.inj h)
          have hlen : ((base.drop off).take size).length = size := by
            rw [List.length_take, List.length_drop]
            omega
          rw [hlen]
          simp only [hoff, hsize, hzero, if_false]
          exact ⟨trivial, by omega⟩
  · obtain ⟨rfl, rfl⟩ := Prod.mk.inj (Except.ok.inj h)
    rw [List.length_take, Nat.min_eq_left (by omega)]
    exact ⟨rfl, by omega⟩

theorem applyOps_grows {base : Bytes} {fuel : Nat} {delta out res : Bytes}
    (h : applyOps base fuel delta out = .ok res) (hfuel : delta.length ≤ fuel) :
    out.length ≤ res.length ∧ (delta ≠ [] → out.length < res.length) := by
  induction fuel generalizing delta out with
  | zero =>
    obtain rfl := List.eq_nil_of_length_eq_zero (Nat.le_zero.mp hfuel)
    obtain rfl := Except.ok.inj h
    exact ⟨Nat.le_refl _, fun hne => absurd rfl hne⟩
  | succ fuel ih =>
    cases delta with
    | nil =>
      obtain rfl := Except.ok.inj h
      exact ⟨Nat.le_refl _, fun hne => absurd rfl hne⟩
    | cons op delta =>
      rw [applyOps] at h
      split at h
      · exact absurd h (by simp)
      · rename_i added rest hop
        obtain ⟨hlen, hpos⟩ := applyOp_length hop
        have hrest := (opLength_reads op).length_le hlen
        rw [List.length_cons] at hfuel
        have := (ih h (by omega)).1
        rw [List.length_append] at this
        exact ⟨by omega, fun _ => by omega⟩

/-- A beginning of some opcodes adds less than all of them, whatever the bases. -/
theorem applyOps_cut {base base' : Bytes} {fuel fuel' : Nat} {delta z out out' res res' : Bytes}
    (hcut : applyOps base' fuel' delta out' = .ok res') (hwhole : applyOps base fuel (delta ++ z) out = .ok res)
    (hz : z ≠ []) (hlen : out'.length = out.length) (hfuel' : delta.length ≤ fuel')
    (hfuel : (delta ++ z).length ≤ fuel) : res'.length < res.length := by
  induction fuel' generalizing fuel delta out out' with
  | zero =>
    obtain rfl := List.eq_nil_of_length_eq_zero (Nat.le_zero.mp hfuel')
    obtain rfl := Except.ok.inj hcut
    rw [hlen]
    exact (applyOps_grows hwhole hfuel).2 hz
  | succ fuel' ih =>
    cases delta with
    | nil =>
      obtain rfl := Except.ok.inj hcut
      rw [hlen]
      exact (applyOps_grows hwhole hfuel).2 hz
    | cons op delta =>
      obtain ⟨n, rfl⟩ : ∃ n, fuel = n + 1 := ⟨fuel - 1, by rw [List.cons_append, List.length_cons] at hfuel; omega⟩
      rw [List.cons_append, applyOps] at hwhole
      rw [applyOps] at hcut
      split at hcut
      · exact absurd hcut (by simp)
      · rename_i added' rest' hop'
        split at hwhole
        · exact absurd hwhole (by simp)
        · rename_i added rest hop
          obtain ⟨hlen', -⟩ := applyOp_length hop'
          have hsame := (opLength_reads op).append hlen' z
          rw [(applyOp_length hop).1] at hsame
          obtain ⟨hadded, rfl⟩ := Prod.mk.inj (Except.ok.inj hsame)
          have hrest := (opLength_reads op).length_le hlen'
          rw [List.length_cons] at hfuel'
          rw [List.cons_append, List.length_cons, List.length_append] at hfuel
          refine ih hcut hwhole ?_ (by omega) (by rw [List.length_append]; omega)
          rw [List.length_append, List.length_append, hlen, hadded]

/-- No proper beginning of a delta that can be applied to something can be applied to anything. -/
theorem applyGitDelta_cut {base base' delta z out out' : Bytes}
    (hwhole : applyGitDelta base (delta ++ z) = .ok out) (hcut : applyGitDelta base' delta = .ok out') : z = [] := by
  by_contra hz
  unfold applyGitDelta at hwhole hcut
  split at hcut
  · exact absurd hcut (by simp)
  · rename_i len rest₁ hlen₁
    rw [decodeVarint_reads.append hlen₁ z] at hwhole
    simp only at hwhole
    split at hcut
    · exact absurd hcut (by simp)
    · rename_i resLen rest₂ hlen₂
      rw [decodeVarint_reads.append hlen₂ z] at hwhole
      simp only at hwhole
      split_ifs at hcut hwhole
      split at hcut
      · exact absurd hcut (by simp)
      · rename_i got' hgot'
        split at hwhole
        · exact absurd hwhole (by simp)
        · rename_i got hgot
          split_ifs at hcut hwhole with hres' hres
          have := applyOps_cut hgot' hgot hz rfl (Nat.le_refl _) (Nat.le_refl _)
          omega

end GitNfs
