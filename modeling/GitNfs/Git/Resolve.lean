import GitNfs.Git.DeltaValid
import GitNfs.Git.PackObjects

/-! # Resolving the deltas of a pack

The deltas are gone over in rounds. A round applies each delta whose base is there, which may have come to be
there earlier in the same round, and leaves the others to the next.
-/

namespace GitNfs

/-! ## The chains of a pack -/

/-- What the chain of bases of the record at an offset makes, followed to its end with every delta applied. A
base that is named by its id is one object. -/
inductive ResolvesTo (records : List Placed) : Nat → GitRawObject → Prop where
  | object {p : Placed} {t : ObjectType} : p ∈ records → p.record.source = .object t →
      ResolvesTo records p.offset ⟨t, p.record.data⟩
  | offset {p : Placed} {b : Nat} {base : GitRawObject} {data : Bytes} : p ∈ records →
      p.record.source = .delta (.offset b) → ResolvesTo records b base →
      applyGitDelta base.data p.record.data = .ok data → ResolvesTo records p.offset ⟨base.objType, data⟩
  | sha {p : Placed} {b : Nat} {base : GitRawObject} {data : Bytes} : p ∈ records →
      p.record.source = .delta (.sha base.oid) → ResolvesTo records b base →
      (∀ o obj, ObjectAt records o obj → obj.oid = base.oid → obj = base) →
      applyGitDelta base.data p.record.data = .ok data → ResolvesTo records p.offset ⟨base.objType, data⟩

/-- The chain of bases of the record at an offset ends at an object of this type that is stored whole. -/
inductive RootedAt (records : List Placed) : Nat → ObjectType → Prop where
  | object {p : Placed} {t : ObjectType} : p ∈ records → p.record.source = .object t →
      RootedAt records p.offset t
  | offset {p : Placed} {b : Nat} {t : ObjectType} : p ∈ records → p.record.source = .delta (.offset b) →
      RootedAt records b t → RootedAt records p.offset t
  | sha {p : Placed} {b : Nat} {base : GitRawObject} {t : ObjectType} : p ∈ records →
      p.record.source = .delta (.sha base.oid) → ObjectAt records b base → RootedAt records b t →
      RootedAt records p.offset t

theorem ObjectAt.rooted {records : List Placed} {o : Nat} {obj : GitRawObject} (h : ObjectAt records o obj) :
    RootedAt records o obj.objType := by
  induction h with
  | object hp hsource => exact .object hp hsource
  | offset hp hsource _ _ ih => exact .offset hp hsource ih
  | sha hp hsource hbase _ ih => exact .sha hp hsource hbase ih

theorem ResolvesTo.objectAt {records : List Placed} {o : Nat} {obj : GitRawObject} (h : ResolvesTo records o obj) :
    ObjectAt records o obj := by
  induction h with
  | object hp hsource => exact .object hp hsource
  | offset hp hsource _ hdata ih => exact .offset hp hsource ih hdata
  | sha hp hsource _ _ hdata ih => exact .sha hp hsource ih hdata

/-- The chain of a delta that names itself by its place has no end. -/
theorem RootedAt.not_self {records : List Placed} {pos o : Nat} {t : ObjectType} (hlaid : Laid pos records)
    (h : RootedAt records o t) : ∀ p ∈ records, p.offset = o → p.record.source ≠ .delta (.offset o) := by
  induction h with
  | object hp hsource =>
    intro q hq hqo
    obtain rfl := hlaid.offset_inj hp hq hqo.symm
    rw [hsource]
    simp
  | @offset p b t hp hsource hbase ih =>
    intro q hq hqo hself
    obtain rfl := hlaid.offset_inj hp hq hqo.symm
    rw [hsource] at hself
    obtain rfl : b = p.offset := by simpa using hself
    exact ih p hp rfl hsource
  | sha hp hsource hbase _ ih =>
    intro q hq hqo
    obtain rfl := hlaid.offset_inj hp hq hqo.symm
    rw [hsource]
    simp

section Unique

variable {records : List Placed} {pos : Nat}

/-- Where a chain can be followed, the record is one object and no other. -/
theorem ResolvesTo.unique (hlaid : Laid pos records) {o : Nat} {obj : GitRawObject}
    (h : ResolvesTo records o obj) : ∀ other, ObjectAt records o other → other = obj := by
  induction h with
  | @object p t hp hsource =>
    intro other hother
    generalize ho : p.offset = o at hother
    cases hother with
    | object hp' hsource' =>
      obtain rfl := hlaid.offset_inj hp hp' ho
      rw [hsource] at hsource'
      cases hsource'
      rfl
    | offset hp' hsource' _ _ =>
      obtain rfl := hlaid.offset_inj hp hp' ho
      exact absurd (hsource.symm.trans hsource') (by simp)
    | sha hp' hsource' _ _ =>
      obtain rfl := hlaid.offset_inj hp hp' ho
      exact absurd (hsource.symm.trans hsource') (by simp)
  | @offset p b base data hp hsource _ hdata ih =>
    intro other hother
    generalize ho : p.offset = o at hother
    cases hother with
    | object hp' hsource' =>
      obtain rfl := hlaid.offset_inj hp hp' ho
      exact absurd (hsource.symm.trans hsource') (by simp)
    | offset hp' hsource' hbase' hdata' =>
      obtain rfl := hlaid.offset_inj hp hp' ho
      rw [hsource] at hsource'
      cases hsource'
      obtain rfl := ih _ hbase'
      rw [hdata] at hdata'
      rw [Except.ok.inj hdata']
    | sha hp' hsource' _ _ =>
      obtain rfl := hlaid.offset_inj hp hp' ho
      exact absurd (hsource.symm.trans hsource') (by simp)
  | @sha p b base data hp hsource _ hone hdata ih =>
    intro other hother
    generalize ho : p.offset = o at hother
    cases hother with
    | object hp' hsource' =>
      obtain rfl := hlaid.offset_inj hp hp' ho
      exact absurd (hsource.symm.trans hsource') (by simp)
    | offset hp' hsource' _ _ =>
      obtain rfl := hlaid.offset_inj hp hp' ho
      exact absurd (hsource.symm.trans hsource') (by simp)
    | @sha _ b' base' data' hp' hsource' hbase' hdata' =>
      obtain rfl := hlaid.offset_inj hp hp' ho
      rw [hsource] at hsource'
      have hoid : base.oid = base'.oid := by simpa using hsource'
      obtain rfl := hone b' base' hbase' hoid.symm
      rw [hdata] at hdata'
      rw [Except.ok.inj hdata']

end Unique

/-! ## The rounds -/

/-- `while !pending_deltas.is_empty()`, which has no bound of its own. -/
inductive Rounds : Unpacked → Except PackError Unpacked → Prop where
  | done {u : Unpacked} : u.pending = [] → Rounds u (.ok u)
  | failed {u : Unpacked} {e : PackError} : u.pending ≠ [] →
      resolveRound u.pending { u with pending := [] } = .error e → Rounds u (.error e)
  | stuck {u next : Unpacked} : u.pending ≠ [] → resolveRound u.pending { u with pending := [] } = .ok next →
      next.pending.length = u.pending.length → Rounds u (.error (.missingBases next.pending.length))
  | again {u next : Unpacked} {r : Except PackError Unpacked} : u.pending ≠ [] →
      resolveRound u.pending { u with pending := [] } = .ok next →
      next.pending.length ≠ u.pending.length → Rounds next r → Rounds u r

/-- The rounds end, and what they end with is what is computed. -/
theorem rounds_resolveDeltas {fuel : Nat} {u : Unpacked} (hfuel : u.pending.length ≤ fuel) :
    Rounds u (resolveDeltas fuel u) := by
  induction fuel generalizing u with
  | zero => exact .done (List.eq_nil_of_length_eq_zero (Nat.le_zero.mp hfuel))
  | succ fuel ih =>
    rw [resolveDeltas]
    split_ifs with hnil
    · exact .done hnil
    · cases hround : resolveRound u.pending { u with pending := [] } with
      | error e => exact .failed hnil hround
      | ok next =>
        simp only
        split_ifs with hstuck
        · exact .stuck hnil hround hstuck
        · have hlen := Unpacked.resolveRound_length _ _ next hround
          rw [List.length_nil, Nat.zero_add] at hlen
          exact .again hnil hround hstuck (ih (by omega))

/-- The states that the rounds come to, with the deltas of the round that are left and how many it began with. -/
inductive RoundReached (u₀ : Unpacked) : Unpacked → List PendingDelta → Nat → Prop where
  | start : u₀.pending ≠ [] → RoundReached u₀ { u₀ with pending := [] } u₀.pending u₀.pending.length
  | wait {u : Unpacked} {item : PendingDelta} {items : List PendingDelta} {n : Nat} :
      RoundReached u₀ u (item :: items) n → u.baseInfo item.base = none →
      RoundReached u₀ (u.push item) items n
  | apply {u : Unpacked} {item : PendingDelta} {items : List PendingDelta} {n : Nat} {base : GitRawObject}
      {resolved : Bytes} : RoundReached u₀ u (item :: items) n → u.baseInfo item.base = some base →
      applyGitDelta base.data item.deltaData = .ok resolved →
      RoundReached u₀ (u.insert item.objOffset ⟨base.objType, resolved⟩) items n
  | round {u : Unpacked} {n : Nat} : RoundReached u₀ u [] n → u.pending.length ≠ n → u.pending ≠ [] →
      RoundReached u₀ { u with pending := [] } u.pending u.pending.length

/-- The second size of the delta, as it is read, is above every capacity. -/
def ResultOverflows (delta : Bytes) : Prop :=
  ∃ baseLen rest resLen rest', decodeVarint delta = .ok (baseLen, rest) ∧
    decodeVarint rest = .ok (resLen, rest') ∧ maxCapacity < resLen

/-- No delta that is applied has such a size. -/
def NoOverflow (u₀ : Unpacked) : Prop :=
  ∀ u item items n, RoundReached u₀ u (item :: items) n → (u.baseInfo item.base).isSome →
    ¬ ResultOverflows item.deltaData

theorem applyGitDelta_overflows_iff (base delta : Bytes) :
    (∃ n, applyGitDelta base delta = .error (.capacityOverflow n)) ↔ ResultOverflows delta := by
  constructor
  · rintro ⟨n, h⟩
    rcases applyGitDelta_split base delta with ⟨e, he, hreturned⟩ | ⟨s₁, n₁, s₂, n₂, w, rest, rfl, h₁, h₂, hw⟩
    · rw [he] at h
      exact absurd (Except.error.inj h) (hreturned n)
    · obtain ⟨w₁, hw₁⟩ := h₁.decode
      have hread₁ := decodeVarint_reads.append hw₁ (s₂ ++ rest)
      have hread₂ := decodeVarint_reads.append hw rest
      rw [List.nil_append] at hread₁ hread₂
      refine ⟨w₁, s₂ ++ rest, w, rest, hread₁, hread₂, ?_⟩
      by_contra hcap
      rw [applyGitDelta_parts h₁ hw, if_neg hcap] at h
      split at h
      · rename_i e he
        exact applyOps_returned he n (Except.error.inj h)
      · split_ifs at h
        simp at h
  · rintro ⟨baseLen, rest, resLen, rest', hbase, hres, hcap⟩
    refine ⟨resLen, ?_⟩
    unfold applyGitDelta
    rw [hbase]
    simp only [hres, if_pos hcap]

/-! ### Which deltas fail the rounds -/

section Reached

variable {u₀ : Unpacked}

/-- A round that fails comes to a delta that cannot be applied. -/
theorem RoundReached.failed {items : List PendingDelta} {u : Unpacked} {n : Nat} {e : PackError}
    (h : RoundReached u₀ u items n) (hround : resolveRound items u = .error e) :
    ∃ u' item items' base, RoundReached u₀ u' (item :: items') n ∧ u'.baseInfo item.base = some base ∧
      applyGitDelta base.data item.deltaData = .error e := by
  induction items generalizing u with
  | nil =>
    rw [resolveRound] at hround
    simp at hround
  | cons item items ih =>
    rw [resolveRound] at hround
    cases hbase : u.baseInfo item.base with
    | none =>
      rw [hbase] at hround
      exact ih (.wait h hbase) hround
    | some base =>
      rw [hbase] at hround
      simp only at hround
      cases hdata : applyGitDelta base.data item.deltaData with
      | error e' =>
        rw [hdata] at hround
        obtain rfl := Except.error.inj hround
        exact ⟨u, item, items, base, h, hbase, hdata⟩
      | ok resolved =>
        rw [hdata] at hround
        exact ih (.apply h hbase hdata) hround

theorem RoundReached.finish {items : List PendingDelta} {u next : Unpacked} {n : Nat}
    (h : RoundReached u₀ u items n) (hround : resolveRound items u = .ok next) :
    RoundReached u₀ next [] n := by
  induction items generalizing u with
  | nil =>
    obtain rfl := Except.ok.inj hround
    exact h
  | cons item items ih =>
    rw [resolveRound] at hround
    cases hbase : u.baseInfo item.base with
    | none =>
      rw [hbase] at hround
      exact ih (.wait h hbase) hround
    | some base =>
      rw [hbase] at hround
      simp only at hround
      cases hdata : applyGitDelta base.data item.deltaData with
      | error e' =>
        rw [hdata] at hround
        exact absurd hround (by simp)
      | ok resolved =>
        rw [hdata] at hround
        exact ih (.apply h hbase hdata) hround

/-- The rounds fail with bases that are missing, or at a delta that cannot be applied. -/
theorem resolveDeltas_failed {fuel : Nat} {u : Unpacked} {e : PackError}
    (hstart : u.pending ≠ [] → RoundReached u₀ { u with pending := [] } u.pending u.pending.length)
    (hrun : resolveDeltas fuel u = .error e) :
    (∃ n, e = .missingBases n) ∨
      ∃ u' item items base n, RoundReached u₀ u' (item :: items) n ∧ u'.baseInfo item.base = some base ∧
        applyGitDelta base.data item.deltaData = .error e := by
  induction fuel generalizing u with
  | zero =>
    rw [resolveDeltas] at hrun
    simp at hrun
  | succ fuel ih =>
    rw [resolveDeltas] at hrun
    split_ifs at hrun with hnil
    cases hround : resolveRound u.pending { u with pending := [] } with
    | error e' =>
      rw [hround] at hrun
      obtain rfl := Except.error.inj hrun
      obtain ⟨u', item, items, base, hreached, hbase, hdata⟩ := (hstart hnil).failed hround
      exact .inr ⟨u', item, items, base, _, hreached, hbase, hdata⟩
    | ok next =>
      rw [hround] at hrun
      simp only at hrun
      split_ifs at hrun with hstuck
      · exact .inl ⟨_, (Except.error.inj hrun).symm⟩
      · exact ih (.round ((hstart hnil).finish hround) hstuck) hrun

/-- What is left of the rounds, after one that began with `n` deltas. -/
def afterRound (fuel n : Nat) : Except PackError Unpacked → Except PackError Unpacked
  | .error e => .error e
  | .ok next => if next.pending.length = n then .error (.missingBases next.pending.length) else resolveDeltas fuel next

theorem resolveDeltas_succ {fuel : Nat} {u : Unpacked} (h : u.pending ≠ []) :
    resolveDeltas (fuel + 1) u =
      afterRound fuel u.pending.length (resolveRound u.pending { u with pending := [] }) := by
  rw [resolveDeltas, if_neg h]
  cases resolveRound u.pending { u with pending := [] } <;> rfl

/-- From each state that is reached, the rounds go on to the same end. -/
theorem RoundReached.continues {u : Unpacked} {items : List PendingDelta} {n : Nat}
    (h : RoundReached u₀ u items n) :
    u.pending.length + items.length ≤ n ∧ ∃ fuel, n ≤ fuel + 1 ∧
      resolveDeltas u₀.pending.length u₀ = afterRound fuel n (resolveRound items u) := by
  induction h with
  | start hne =>
    obtain ⟨k, hk⟩ := Nat.exists_eq_succ_of_ne_zero (mt List.eq_nil_of_length_eq_zero hne)
    refine ⟨by simp, k, by omega, ?_⟩
    conv_lhs => rw [hk]
    exact resolveDeltas_succ hne
  | wait _ hbase ih =>
    obtain ⟨hlen, fuel, hfuel, hrun⟩ := ih
    refine ⟨?_, fuel, hfuel, ?_⟩
    · rw [Unpacked.push, List.length_append, List.length_singleton]
      rw [List.length_cons] at hlen
      omega
    · rw [hrun, resolveRound, hbase]
  | apply _ hbase hdata ih =>
    obtain ⟨hlen, fuel, hfuel, hrun⟩ := ih
    refine ⟨?_, fuel, hfuel, ?_⟩
    · rw [Unpacked.insert_pending]
      rw [List.length_cons] at hlen
      omega
    · rw [hrun, resolveRound, hbase]
      simp only [hdata]
  | @round u n _ hprogress hne ih =>
    obtain ⟨hlen, fuel, hfuel, hrun⟩ := ih
    have hpos : 0 < u.pending.length := List.length_pos_iff.mpr hne
    rw [List.length_nil, Nat.add_zero] at hlen
    obtain ⟨k, rfl⟩ : ∃ k, fuel = k + 1 := ⟨fuel - 1, by omega⟩
    refine ⟨by simp, k, by omega, ?_⟩
    rw [hrun, resolveRound, afterRound, if_neg hprogress]
    exact resolveDeltas_succ hne

/-- The rounds panic exactly if a delta that overflows is applied. -/
theorem resolveDeltas_panics_iff :
    (∃ n, resolveDeltas u₀.pending.length u₀ = .error (.capacityOverflow n)) ↔ ¬ NoOverflow u₀ := by
  constructor
  · rintro ⟨w, hrun⟩ hno
    rcases resolveDeltas_failed .start hrun with ⟨n, hn⟩ | ⟨u, item, items, base, n, hreached, hbase, hdata⟩
    · simp at hn
    · exact hno u item items n hreached (by rw [hbase]; rfl) ((applyGitDelta_overflows_iff _ _).mp ⟨w, hdata⟩)
  · intro hno
    unfold NoOverflow at hno
    push Not at hno
    obtain ⟨u, item, items, n, hreached, hbase, hover⟩ := hno
    obtain ⟨base, hbase⟩ := Option.isSome_iff_exists.mp hbase
    obtain ⟨w, hw⟩ := (applyGitDelta_overflows_iff base.data _).mpr hover
    obtain ⟨-, fuel, -, hrun⟩ := hreached.continues
    refine ⟨w, ?_⟩
    rw [hrun, resolveRound, hbase]
    simp only [hw, afterRound]

end Reached

/-! ### When every chain can be followed -/

namespace Unpacked

variable {records : List Placed} {pos : Nat} {u : Unpacked}

/-- The object that is found for a base is the one that the chain makes. -/
theorem Sound.applies (h : Sound records u) (hlaid : Laid pos records)
    (hall : ∀ p ∈ records, ∃ obj, ResolvesTo records p.offset obj) {item : PendingDelta}
    (hitem : IsPending records item) {base : GitRawObject} (hbase : u.baseInfo item.base = some base) :
    ∃ resolved, applyGitDelta base.data item.deltaData = .ok resolved := by
  obtain ⟨p, hp, -, hsource, hdelta⟩ := hitem
  rw [← hdelta]
  obtain ⟨obj, hobj⟩ := hall p hp
  generalize ho : p.offset = o at hobj
  cases hobj with
  | object hp' hsource' =>
    obtain rfl := hlaid.offset_inj hp hp' ho
    exact absurd (hsource.symm.trans hsource') (by simp)
  | @offset _ b base' data hp' hsource' hbase' hdata =>
    obtain rfl := hlaid.offset_inj hp hp' ho
    rw [hsource] at hsource'
    rw [Source.delta.inj hsource'] at hbase
    obtain rfl := hbase'.unique hlaid base (h.byOffset b base hbase)
    exact ⟨data, hdata⟩
  | @sha _ b base' data hp' hsource' hbase' hone hdata =>
    obtain rfl := hlaid.offset_inj hp hp' ho
    rw [hsource] at hsource'
    rw [Source.delta.inj hsource'] at hbase
    obtain ⟨hoid, o, hobj⟩ := h.bySha base'.oid base hbase
    obtain rfl := hone o base hobj hoid
    exact ⟨data, hdata⟩

/-- Where what waits has no base, everything that a chain makes is there. -/
theorem Sound.resolved (h : Sound records u) (hlaid : Laid pos records)
    (hpending : ∀ item ∈ u.pending, IsPending records item) (hcovers : ∀ p ∈ records, u.Covers u.pending p.offset)
    (hstuck : ∀ item ∈ u.pending, u.baseInfo item.base = none) {o : Nat} {obj : GitRawObject}
    (hobj : ResolvesTo records o obj) : u.byOffset o = some obj := by
  have hmade {p : Placed} {obj : GitRawObject} (hp : p ∈ records) (hobj : ResolvesTo records p.offset obj)
      (hnot : ∀ base, p.record.source = .delta base → (u.baseInfo base).isSome) :
      u.byOffset p.offset = some obj := by
    rcases hcovers p hp with hsome | ⟨item, hitem, hoffset⟩
    · obtain ⟨other, hother⟩ := Option.isSome_iff_exists.mp hsome
      rw [hother, hobj.unique hlaid other (h.byOffset _ _ hother)]
    · obtain ⟨q, hq, hqo, hsource, -⟩ := hpending item hitem
      obtain rfl := hlaid.offset_inj hq hp (hqo.trans hoffset)
      have hsome := hnot item.base hsource
      rw [hstuck item hitem] at hsome
      exact absurd hsome (by simp)
  induction hobj with
  | @object p t hp hsource =>
    refine hmade hp (.object hp hsource) fun base hbase => ?_
    rw [hsource] at hbase
    exact absurd hbase (by simp)
  | @offset p b base data hp hsource hbase hdata ih =>
    refine hmade hp (.offset hp hsource hbase hdata) fun base' hbase' => ?_
    rw [hsource] at hbase'
    rw [← Source.delta.inj hbase', baseInfo, ih]
    rfl
  | @sha p b base data hp hsource hbase hone hdata ih =>
    refine hmade hp (.sha hp hsource hbase hone hdata) fun base' hbase' => ?_
    rw [hsource] at hbase'
    rw [← Source.delta.inj hbase', baseInfo]
    exact h.named b base ih

/-- What waits has a base, somewhere. -/
theorem Sound.not_stuck (h : Sound records u) (hlaid : Laid pos records)
    (hall : ∀ p ∈ records, ∃ obj, ResolvesTo records p.offset obj)
    (hpending : ∀ item ∈ u.pending, IsPending records item) (hcovers : ∀ p ∈ records, u.Covers u.pending p.offset)
    (hne : u.pending ≠ []) : ∃ item ∈ u.pending, (u.baseInfo item.base).isSome := by
  by_contra hnone
  push Not at hnone
  have hstuck : ∀ item ∈ u.pending, u.baseInfo item.base = none := fun item hitem => by
    simpa using hnone item hitem
  obtain ⟨item, hitem⟩ := List.exists_mem_of_ne_nil _ hne
  obtain ⟨p, hp, -, hsource, -⟩ := hpending item hitem
  obtain ⟨obj, hobj⟩ := hall p hp
  have hthere {o : Nat} {obj : GitRawObject} (hobj : ResolvesTo records o obj) : u.byOffset o = some obj :=
    h.resolved hlaid hpending hcovers hstuck hobj
  have hbase := hstuck item hitem
  generalize ho : p.offset = o at hobj
  cases hobj with
  | object hp' hsource' =>
    obtain rfl := hlaid.offset_inj hp hp' ho
    exact absurd (hsource.symm.trans hsource') (by simp)
  | offset hp' hsource' hbase' _ =>
    obtain rfl := hlaid.offset_inj hp hp' ho
    rw [hsource] at hsource'
    rw [Source.delta.inj hsource', baseInfo, hthere hbase'] at hbase
    exact absurd hbase (by simp)
  | sha hp' hsource' hbase' _ _ =>
    obtain rfl := hlaid.offset_inj hp hp' ho
    rw [hsource] at hsource'
    have hsome := h.named _ _ (hthere hbase')
    rw [Source.delta.inj hsource', baseInfo] at hbase
    rw [hbase] at hsome
    exact absurd hsome (by simp)

/-- A round in which nothing is applied found no base. -/
theorem resolveRound_stuck {items : List PendingDelta} {u next : Unpacked} (hrun : resolveRound items u = .ok next)
    (hlen : next.pending.length = u.pending.length + items.length) :
    ∀ item ∈ items, u.baseInfo item.base = none := by
  induction items generalizing u with
  | nil => exact fun item hitem => absurd hitem (by simp)
  | cons item items ih =>
    rw [resolveRound] at hrun
    rw [List.length_cons] at hlen
    cases hbase : u.baseInfo item.base with
    | none =>
      rw [hbase] at hrun
      have hrest := ih hrun (by
        rw [Unpacked.push, List.length_append, List.length_singleton]
        omega)
      intro i hi
      rcases List.mem_cons.mp hi with rfl | hi
      · exact hbase
      · have := hrest i hi
        cases hb : i.base <;> rw [hb] at this <;> exact this
    | some base =>
      rw [hbase] at hrun
      simp only at hrun
      split at hrun
      · exact absurd hrun (by simp)
      · have := resolveRound_length _ _ next hrun
        rw [insert_pending] at this
        omega

theorem resolveRound_ok (hlaid : Laid pos records) (hall : ∀ p ∈ records, ∃ obj, ResolvesTo records p.offset obj)
    (items : List PendingDelta) (u : Unpacked) (hu : Sound records u)
    (hpending : ∀ item ∈ items, IsPending records item) : ∃ next, resolveRound items u = .ok next := by
  induction items generalizing u with
  | nil => exact ⟨u, rfl⟩
  | cons item items ih =>
    have hitem := hpending item List.mem_cons_self
    have hitems : ∀ i ∈ items, IsPending records i := fun i hi => hpending i (List.mem_cons_of_mem _ hi)
    rw [resolveRound]
    cases hbase : u.baseInfo item.base with
    | none => exact ih _ (hu.push item) hitems
    | some base =>
      obtain ⟨resolved, hdata⟩ := hu.applies hlaid hall hitem hbase
      simp only [hdata]
      exact ih _ (hu.insert (hu.base hitem hbase hdata)) hitems

theorem resolveDeltas_ok (hlaid : Laid pos records) (hall : ∀ p ∈ records, ∃ obj, ResolvesTo records p.offset obj)
    (fuel : Nat) (u : Unpacked) (hu : Sound records u) (hpending : ∀ item ∈ u.pending, IsPending records item)
    (hcovers : ∀ p ∈ records, u.Covers u.pending p.offset) : ∃ u', resolveDeltas fuel u = .ok u' := by
  induction fuel generalizing u with
  | zero => exact ⟨u, rfl⟩
  | succ fuel ih =>
    rw [resolveDeltas]
    split_ifs with hnil
    · exact ⟨u, rfl⟩
    · have hu' : Sound records { u with pending := [] } := ⟨hu.byOffset, hu.bySha, hu.named⟩
      obtain ⟨next, hround⟩ := resolveRound_ok hlaid hall u.pending _ hu' hpending
      obtain ⟨hsound, hpend, hcov⟩ := resolveRound_spec _ _ next hround hu' (by simpa using hpending)
      rw [hround]
      simp only
      rw [if_neg]
      · exact ih next hsound hpend fun p hp => hcov _ (hcovers p hp)
      · intro hlen
        obtain ⟨item, hitem, hsome⟩ := hu.not_stuck hlaid hall hpending hcovers hnil
        have hnone := resolveRound_stuck hround (by simpa using hlen) item hitem
        cases hb : item.base <;> rw [hb] at hnone hsome <;> simp only [baseInfo] at hnone hsome <;>
          rw [hnone] at hsome <;> exact absurd hsome (by simp)

end Unpacked

/-! ## Whole packs -/

variable {inflate : Bytes → Option (Bytes × Nat)} {pack : Bytes} {records : List Placed}

/-- The header is that of a pack, and its entries can be read. -/
structure Parses (inflate : Bytes → Option (Bytes × Nat)) (pack : Bytes) (records : List Placed) : Prop where
  header : 12 ≤ pack.length
  magic : pack.take 4 = asBytes "PACK".toList
  version : fromBeBytes ((pack.drop 4).take 4) = 2 ∨ fromBeBytes ((pack.drop 4).take 4) = 3
  entries : packRecords inflate pack (fromBeBytes ((pack.drop 8).take 4)) 12 = .ok records
  sizes : ∀ p ∈ records, ∀ t, p.record.source = .object t → p.record.size ≤ maxCapacity

/-- What there is when all entries are read. -/
def heldAfter (records : List Placed) : Unpacked :=
  records.foldl (fun u p => u.add p.offset p.record) Unpacked.empty

theorem Parses.unpack (h : Parses inflate pack records) :
    unpackPackfile inflate pack =
      (resolveDeltas (heldAfter records).pending.length (heldAfter records)).map (·.bySha) := by
  have hversion := h.version
  unfold unpackPackfile
  rw [if_neg (Nat.not_lt.mpr h.header), if_neg (not_not.mpr h.magic), if_neg (by omega), unpackObjects_eq,
    h.entries]
  simp only [heldAfter]
  cases resolveDeltas _ (records.foldl (fun u p => u.add p.offset p.record) Unpacked.empty) <;> rfl

theorem Parses.laid (h : Parses inflate pack records) : Laid 12 records := packRecords_laid h.entries

theorem heldAfter_spec (records : List Placed) :
    Unpacked.Sound records (heldAfter records) ∧
      (∀ item ∈ (heldAfter records).pending, Unpacked.IsPending records item) ∧
      ∀ p ∈ records, (heldAfter records).Covers (heldAfter records).pending p.offset := by
  obtain ⟨hsound, hpending, -, hcovers⟩ := Unpacked.foldl_add records Unpacked.empty (fun p hp => hp)
    (Unpacked.sound_empty records) (fun i hi => absurd hi (by simp [Unpacked.empty])) []
    (fun o ho => absurd ho (by simp))
  exact ⟨hsound, hpending, hcovers⟩

/-- The objects of the pack by their ids. Every entry has the object that its chain makes there, of the type
that the chain ends at, unless another object of the pack goes by the same id. -/
structure HoldsObjects (records : List Placed) (m : Str → Option GitRawObject) : Prop where
  entry : ∀ p ∈ records, ∀ obj, ResolvesTo records p.offset obj → RootedAt records p.offset obj.objType ∧
    ∃ held, m obj.oid = some held ∧ held.oid = obj.oid ∧
      ((∀ o other, ObjectAt records o other → other.oid = obj.oid → other = obj) → held = obj)
  object : ∀ oid obj, m oid = some obj → obj.oid = oid ∧ ∃ o, ObjectAt records o obj

/-- The rounds end. They resolve every entry if all chains can be followed, and return an error if one of them
has no end in the pack. -/
structure ResolvesExactly (inflate : Bytes → Option (Bytes × Nat)) (pack : Bytes) (records : List Placed) : Prop where
  ends : ∃ r, Rounds (heldAfter records) r ∧ unpackPackfile inflate pack = r.map (·.bySha)
  resolves : (∀ p ∈ records, ∃ obj, ResolvesTo records p.offset obj) →
    ∃ m, unpackPackfile inflate pack = .ok m ∧ HoldsObjects records m
  fails : (∃ p ∈ records, ∀ t, ¬ RootedAt records p.offset t) →
    ∃ e, unpackPackfile inflate pack = .error e ∧ e.Returned

theorem Parses.ends (h : Parses inflate pack records) :
    ∃ r, Rounds (heldAfter records) r ∧ unpackPackfile inflate pack = r.map (·.bySha) :=
  ⟨_, rounds_resolveDeltas (Nat.le_refl _), h.unpack⟩

theorem Parses.resolves (h : Parses inflate pack records)
    (hall : ∀ p ∈ records, ∃ obj, ResolvesTo records p.offset obj) :
    ∃ m, unpackPackfile inflate pack = .ok m ∧ HoldsObjects records m := by
  obtain ⟨hsound, hpending, hcovers⟩ := heldAfter_spec records
  obtain ⟨u, hu⟩ := Unpacked.resolveDeltas_ok h.laid hall (heldAfter records).pending.length _ hsound hpending hcovers
  obtain ⟨hfinal, hthere⟩ := Unpacked.resolveDeltas_spec _ _ u hu hsound hpending (Nat.le_refl _)
  refine ⟨u.bySha, by rw [h.unpack, hu]; rfl, ⟨fun p hp obj hobj => ⟨hobj.objectAt.rooted, ?_⟩, hfinal.bySha⟩⟩
  obtain ⟨other, hother⟩ := Option.isSome_iff_exists.mp (hthere p.offset (hcovers p hp))
  obtain rfl := hobj.unique h.laid other (hfinal.byOffset _ _ hother)
  obtain ⟨held, hheld⟩ := Option.isSome_iff_exists.mp (hfinal.named _ _ hother)
  obtain ⟨hoid, o, hat⟩ := hfinal.bySha _ _ hheld
  exact ⟨held, hheld, hoid, fun hone => hone o held hat hoid⟩

/-- The rounds fail where a chain has no end. -/
theorem heldAfter_fails (hcut : ∃ p ∈ records, ∀ t, ¬ RootedAt records p.offset t) :
    ∃ e, resolveDeltas (heldAfter records).pending.length (heldAfter records) = .error e := by
  obtain ⟨p, hp, hroot⟩ := hcut
  cases hrun : resolveDeltas (heldAfter records).pending.length (heldAfter records) with
  | error e => exact ⟨e, rfl⟩
  | ok u =>
    obtain ⟨hsound, hpending, hcovers⟩ := heldAfter_spec records
    obtain ⟨hfinal, hthere⟩ := Unpacked.resolveDeltas_spec _ _ u hrun hsound hpending (Nat.le_refl _)
    obtain ⟨obj, hobj⟩ := Option.isSome_iff_exists.mp (hthere p.offset (hcovers p hp))
    exact absurd (hfinal.byOffset _ _ hobj).rooted (hroot _)

/-- Where a chain has no end, the rounds must not come to a delta that overflows. Nothing else is asked. -/
theorem unpackPackfile_exact_iff (h : Parses inflate pack records) :
    ResolvesExactly inflate pack records ↔
      ((∃ p ∈ records, ∀ t, ¬ RootedAt records p.offset t) → NoOverflow (heldAfter records)) := by
  constructor
  · intro hexact hcut
    by_contra hover
    obtain ⟨e, he, hreturned⟩ := hexact.fails hcut
    obtain ⟨n, hn⟩ := resolveDeltas_panics_iff.mpr hover
    rw [h.unpack, hn] at he
    exact hreturned n (Except.error.inj he).symm
  · intro hover
    refine ⟨h.ends, h.resolves, fun hcut => ?_⟩
    obtain ⟨e, he⟩ := heldAfter_fails hcut
    refine ⟨e, by rw [h.unpack, he]; rfl, fun n hn => ?_⟩
    rw [hn] at he
    exact resolveDeltas_panics_iff.mp ⟨n, he⟩ (hover hcut)

/-! ### Two packs -/

/-- A delta, and the blob that it is a delta of. -/
def forwardPack : Bytes :=
  packHeader 2 ++ (0x70 :: (hexDecode (computeGitSha1 .blob [1, 2, 3])).getD [] ++ zlibStored [3, 2, 0x90, 2]) ++
    (0x30 :: zlibStored [1, 2, 3])

def forwardRecords : List Placed :=
  [⟨12, ⟨.delta (.sha (computeGitSha1 .blob [1, 2, 3])), 0, [3, 2, 0x90, 2]⟩, 36⟩,
    ⟨48, ⟨.object .blob, 0, [1, 2, 3]⟩, 15⟩]

theorem forwardPack_exact_iff :
    Parses inflateStored forwardPack forwardRecords ∧
    (ResolvesExactly inflateStored forwardPack forwardRecords ↔
      ((∃ p ∈ forwardRecords, ∀ t, ¬ RootedAt forwardRecords p.offset t) → NoOverflow (heldAfter forwardRecords))) := by
  have hparses : Parses inflateStored forwardPack forwardRecords :=
    ⟨by decide +kernel, by decide +kernel, by decide +kernel, by decide +kernel, fun p hp t ht => by
      rcases List.mem_cons.mp hp with rfl | hp
      · exact absurd ht (by simp)
      · obtain rfl := List.mem_singleton.mp hp
        decide⟩
  exact ⟨hparses, unpackPackfile_exact_iff hparses⟩

/-- A blob, a delta of itself, and a delta of the blob that promises 2^63 bytes. -/
def overflowPack : Bytes :=
  packHeader 3 ++ (0x30 :: zlibStored []) ++ ([0x60, 0] ++ zlibStored []) ++
    ([0x60, 25] ++ zlibStored ([0] ++ (List.replicate 9 0x80 ++ [1])))

def overflowRecords : List Placed :=
  [⟨12, ⟨.object .blob, 0, []⟩, 12⟩, ⟨24, ⟨.delta (.offset 24), 0, []⟩, 13⟩,
    ⟨37, ⟨.delta (.offset 12), 0, [0] ++ (List.replicate 9 0x80 ++ [1])⟩, 24⟩]

theorem overflowPack_panics :
    Parses inflateStored overflowPack overflowRecords ∧
    (∃ p ∈ overflowRecords, ∀ t, ¬ RootedAt overflowRecords p.offset t) ∧
    (unpackPackfile inflateStored overflowPack).map (fun _ => ()) = .error (.capacityOverflow (2 ^ 63)) ∧
    ¬ ResolvesExactly inflateStored overflowPack overflowRecords := by
  have hparses : Parses inflateStored overflowPack overflowRecords :=
    ⟨by decide +kernel, by decide +kernel, by decide +kernel, by decide +kernel, fun p hp t ht => by
      simp only [overflowRecords, List.mem_cons, List.not_mem_nil, or_false] at hp
      rcases hp with rfl | rfl | rfl
      · decide
      · exact absurd ht (by simp)
      · exact absurd ht (by simp)⟩
  have hself : (⟨24, ⟨.delta (.offset 24), 0, []⟩, 13⟩ : Placed) ∈ overflowRecords := by decide
  have hcut : ∃ p ∈ overflowRecords, ∀ t, ¬ RootedAt overflowRecords p.offset t :=
    ⟨_, hself, fun t ht => ht.not_self hparses.laid _ hself rfl rfl⟩
  have hpanic : (unpackPackfile inflateStored overflowPack).map (fun _ => ()) =
      .error (.capacityOverflow (2 ^ 63)) := by decide +kernel
  refine ⟨hparses, hcut, hpanic, fun hexact => ?_⟩
  obtain ⟨e, he, hreturned⟩ := hexact.fails hcut
  rw [he] at hpanic
  exact hreturned _ (Except.error.inj hpanic)

end GitNfs
