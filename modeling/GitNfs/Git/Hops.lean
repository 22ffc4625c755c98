import GitNfs.Git.PackReader
import GitNfs.Lib.Chain
import Mathlib.Data.Set.Finite.Lattice
import Mathlib.Data.Set.Finite.List

/-! # From a delta to its base

Reading an object of a pack calls for the base of a delta, by its offset or by its id. Nothing keeps these
calls from coming back to where they were.
-/

namespace GitNfs

open Chain

/-- A call of `read_pack_object`. -/
structure ObjectCall where
  packName : Str
  offset : Nat
  estimatedLen : Nat
  deriving DecidableEq, Repr

namespace PackReader

/-- The call that `read_object_raw` makes for an object that is in a pack. -/
def objectCall (s : PackReader) (oid : Str) : Option ObjectCall :=
  match s.objectCache oid with
  | some _ => none
  | none =>
    match hexDecode oid with
    | none => none
    | some sha =>
      if sha.length ≠ 20 then none else (s.packMatch sha).map fun m => ⟨m.1, m.2.1, m.2.2⟩

/-- The call that is made for the base of a delta. -/
def baseCall (inflate : Bytes → Option (Bytes × Nat)) (s : PackReader) (c : ObjectCall) : Option ObjectCall :=
  match s.readPackSlice c.packName c.offset (readLen c.estimatedLen) with
  | none => none
  | some packSlice =>
    if packSlice = [] then none
    else
      match readRecord inflate c.offset packSlice with
      | .error _ => none
      | .ok (record, _) =>
        match record.source with
        | .object _ => none
        | .delta (.offset base) =>
          some ⟨c.packName, base, (s.getPackObjectLen c.packName base).getD record.size⟩
        | .delta (.sha base) => s.objectCall base

variable {inflate : Bytes → Option (Bytes × Nat)} {s : PackReader}

/-! ## The chain of the calls -/

theorem applyToBase_eq_none {delta : Bytes} {r : Option (Except ReadError GitRawObject)} :
    applyToBase delta r = none ↔ r = none := by
  unfold applyToBase
  split
  · simp
  · simp
  · split <;> simp

theorem readObjectWith_eq_none {read : Str → Nat → Nat → Option (Except ReadError GitRawObject)} {oid : Str} :
    s.readObjectWith inflate read oid = none ↔
      ∃ c, s.objectCall oid = some c ∧ read c.packName c.offset c.estimatedLen = none := by
  unfold readObjectWith objectCall
  cases s.objectCache oid with
  | some obj => simp
  | none =>
    cases hexDecode oid with
    | none => simp
    | some sha =>
      by_cases hlen : sha.length ≠ 20
      · simp [hlen]
      · simp only [if_neg hlen]
        cases s.packMatch sha with
        | none => simp
        | some m => simp

theorem readPackObject_succ_eq_none {fuel : Nat} {c : ObjectCall} :
    s.readPackObject inflate (fuel + 1) c.packName c.offset c.estimatedLen = none ↔
      ∃ c', s.baseCall inflate c = some c' ∧
        s.readPackObject inflate fuel c'.packName c'.offset c'.estimatedLen = none := by
  rw [readPackObject, baseCall]
  cases s.readPackSlice c.packName c.offset (readLen c.estimatedLen) with
  | none => simp
  | some packSlice =>
    by_cases hempty : packSlice = []
    · simp [hempty]
    simp only [if_neg hempty]
    cases readRecord inflate c.offset packSlice with
    | error e => simp
    | ok r =>
      obtain ⟨record, used⟩ := r
      simp only
      cases record.source with
      | object t => simp
      | delta base =>
        cases base with
        | offset base => simp [applyToBase_eq_none]
        | sha base =>
          simp only
          rw [applyToBase_eq_none, readObjectWith_eq_none]

/-- A reading that is still under way has called for as many bases as it had fuel. -/
theorem readPackObject_eq_none {fuel : Nat} {c : ObjectCall} :
    s.readPackObject inflate fuel c.packName c.offset c.estimatedLen = none ↔
      after (s.baseCall inflate) fuel c ≠ none := by
  induction fuel generalizing c with
  | zero => simp [readPackObject, after]
  | succ fuel ih =>
    rw [readPackObject_succ_eq_none, after]
    cases s.baseCall inflate c with
    | none => simp
    | some c' =>
      rw [Option.bind_some, ← ih]
      simp

theorem readPackObject_ends_iff {c : ObjectCall} :
    (∃ fuel r, s.readPackObject inflate fuel c.packName c.offset c.estimatedLen = some r) ↔
      Ends (s.baseCall inflate) c := by
  unfold Ends
  refine exists_congr fun fuel => ?_
  rw [← Option.ne_none_iff_exists', ne_eq, readPackObject_eq_none, not_not]

theorem readObjectRaw_ends_iff {oid : Str} :
    (∃ fuel r, s.readObjectRaw inflate fuel oid = some r) ↔
      ∀ c, s.objectCall oid = some c → Ends (s.baseCall inflate) c := by
  have hraw (fuel : Nat) : (∃ r, s.readObjectRaw inflate fuel oid = some r) ↔
      ∀ c, s.objectCall oid = some c → after (s.baseCall inflate) fuel c = none := by
    rw [← Option.ne_none_iff_exists', readObjectRaw, ne_eq, readObjectWith_eq_none]
    constructor
    · intro h c hc
      by_contra hsome
      exact h ⟨c, hc, readPackObject_eq_none.mpr hsome⟩
    · rintro h ⟨c, hc, hnone⟩
      exact readPackObject_eq_none.mp hnone (h c hc)
  simp only [hraw]
  constructor
  · rintro ⟨fuel, h⟩ c hc
    exact ⟨fuel, h c hc⟩
  · intro h
    cases hcall : s.objectCall oid with
    | none => exact ⟨0, by simp⟩
    | some c =>
      obtain ⟨fuel, hfuel⟩ := h c hcall
      refine ⟨fuel, fun c' hc' => ?_⟩
      rw [Option.some.injEq] at hc'
      exact hc' ▸ hfuel

/-! ## Finitely many calls -/

theorem varintTail_lt {eof : PackError} {b rest : Bytes} {val shift n : Nat} (hval : val < 2 ^ 64)
    (h : varintTail eof val shift b = .ok (n, rest)) : n < 2 ^ 64 := by
  induction b generalizing val shift with
  | nil => simp [varintTail] at h
  | cons c b ih =>
    have hnext : val ||| usize ((c.toNat % 128) <<< (shift % 64)) < 2 ^ 64 :=
      Nat.or_lt_two_pow hval (Nat.mod_lt _ (by decide))
    rw [varintTail] at h
    split_ifs at h
    · obtain ⟨rfl, -⟩ := Prod.mk.inj (Except.ok.inj h)
      exact hnext
    · exact ih hnext h

theorem readObjectHeader_lt {b rest : Bytes} {t : ObjectType} {size : Nat}
    (h : readObjectHeader b = .ok ((t, size), rest)) : size < 2 ^ 64 := by
  cases b with
  | nil => simp [readObjectHeader] at h
  | cons c b =>
    rw [readObjectHeader] at h
    split at h
    · simp at h
    · split_ifs at h
      · obtain ⟨hsize, -⟩ := Prod.mk.inj (Except.ok.inj h)
        obtain ⟨-, rfl⟩ := Prod.mk.inj hsize
        omega
      · split at h
        · simp at h
        · rename_i htail
          obtain ⟨hsize, -⟩ := Prod.mk.inj (Except.ok.inj h)
          obtain ⟨-, rfl⟩ := Prod.mk.inj hsize
          exact varintTail_lt (by omega) htail

/-- The next call is for a base in the same pack, not behind the delta, or for an object that is named. -/
theorem baseCall_cases {c c' : ObjectCall} (h : s.baseCall inflate c = some c') :
    (∃ size, size < 2 ^ 64 ∧ c'.packName = c.packName ∧ c'.offset ≤ c.offset ∧
      c'.estimatedLen = (s.getPackObjectLen c.packName c'.offset).getD size) ∨
    ∃ oid, s.objectCall oid = some c' := by
  unfold baseCall at h
  split at h
  · simp at h
  split_ifs at h
  split at h
  · simp at h
  rename_i record used hrecord
  obtain ⟨t, rest, stream, n, hheader, hsource, -⟩ := readRecord_parts hrecord
  split at h
  · simp at h
  · rename_i base hbase
    obtain rfl := Option.some.inj h
    rw [hbase] at hsource
    exact .inl ⟨record.size, readObjectHeader_lt hheader, rfl, readSource_offset_le hsource, rfl⟩
  · exact .inr ⟨_, h⟩

/-- The calls for objects by name, of which there are no more than names. -/
def namedCalls (s : PackReader) : Set ObjectCall := {c | ∃ oid, s.objectCall oid = some c}

theorem namedCalls_finite (s : PackReader) : s.namedCalls.Finite := by
  have hbytes : Finite UInt8 := Finite.of_injective UInt8.toFin fun _ _ h => UInt8.toFin_inj.mp h
  have hshas : {sha : Bytes | sha.length = 20}.Finite := List.finite_length_eq UInt8 20
  refine (hshas.biUnion (t := fun sha => {c | (s.packMatch sha).map (fun m => ObjectCall.mk m.1 m.2.1 m.2.2) = some c})
    fun sha _ => Set.Subsingleton.finite ?_).subset ?_
  · intro c hc c' hc'
    exact Option.some.inj (hc.symm.trans hc')
  · rintro c ⟨oid, hc⟩
    unfold objectCall at hc
    split at hc
    · simp at hc
    split at hc
    · simp at hc
    rename_i sha hsha
    split_ifs at hc with hlen
    exact Set.mem_biUnion (show sha.length = 20 by simpa using hlen) hc

/-- The calls that a chain from one call can go through: in the pack of the call or of an object that is named,
up to its offset. -/
theorem reachable_calls_finite (inflate : Bytes → Option (Bytes × Nat)) (s : PackReader) (c : ObjectCall) :
    ∃ S : Set ObjectCall, S.Finite ∧ c ∈ S ∧
      ∀ a ∈ S, ∀ b, s.baseCall inflate a = some b → b ∈ S := by
  have hstarts : (insert c s.namedCalls).Finite := s.namedCalls_finite.insert c
  obtain ⟨bound, hbound⟩ := (hstarts.image ObjectCall.offset).bddAbove
  have hpacks := hstarts.image ObjectCall.packName
  -- an estimate is a size that fits into a word, or the index knows it
  let lens : Set Nat := {n | n < 2 ^ 64} ∪ ObjectCall.estimatedLen '' insert c s.namedCalls ∪
    (fun k : Str × Nat => (s.getPackObjectLen k.1 k.2).getD 0) ''
      ((ObjectCall.packName '' insert c s.namedCalls) ×ˢ {o | o ≤ bound})
  have hlens : lens.Finite :=
    ((Set.finite_lt_nat _).union (hstarts.image _)).union ((hpacks.prod (Set.finite_le_nat bound)).image _)
  let S : Set ObjectCall := {a | a.packName ∈ ObjectCall.packName '' insert c s.namedCalls ∧
    a.offset ∈ {o | o ≤ bound} ∧ a.estimatedLen ∈ lens}
  have hmem : ∀ a ∈ insert c s.namedCalls, a ∈ S := fun a ha =>
    ⟨⟨a, ha, rfl⟩, hbound ⟨a, ha, rfl⟩, .inl (.inr ⟨a, ha, rfl⟩)⟩
  refine ⟨S, ?_, hmem c (Set.mem_insert _ _), fun a ha b hb => ?_⟩
  · refine ((hpacks.prod ((Set.finite_le_nat bound).prod hlens)).image
      fun k : Str × Nat × Nat => ObjectCall.mk k.1 k.2.1 k.2.2).subset ?_
    rintro a ⟨hpack, hoffset, hlen⟩
    exact ⟨(a.packName, a.offset, a.estimatedLen), ⟨hpack, hoffset, hlen⟩, rfl⟩
  · obtain ⟨hpack, hoffset, -⟩ := ha
    rcases baseCall_cases hb with ⟨size, hsize, hsame, hle, hest⟩ | ⟨oid, hnamed⟩
    · have hb' : b.offset ∈ {o | o ≤ bound} := Nat.le_trans hle hoffset
      refine ⟨hsame ▸ hpack, hb', ?_⟩
      cases hknown : s.getPackObjectLen a.packName b.offset with
      | none =>
        rw [hknown, Option.getD_none] at hest
        exact .inl (.inl (hest ▸ hsize))
      | some len =>
        refine .inr ⟨(a.packName, b.offset), ⟨hpack, hb'⟩, ?_⟩
        simp only [hest, hknown, Option.getD_some]
    · exact hmem b (Set.mem_insert_of_mem _ ⟨oid, hnamed⟩)

/-! ## When a reading ends -/

theorem baseCall_ends_iff {c : ObjectCall} : Ends (s.baseCall inflate) c ↔ NoRepeat (s.baseCall inflate) c := by
  obtain ⟨S, hfin, hc, hS⟩ := reachable_calls_finite inflate s c
  exact ends_iff_noRepeat hfin hS hc

/-- A delta that names itself as its base: by a distance of zero, or by the id that the index has for it. -/
def selfPack (base : Bytes) : Bytes := packHeader 1 ++ base ++ zlibStored []

def selfReader (pack : Bytes) (entries : List ObjectEntry) : PackReader where
  packIndexes := [PackIndex.ofEntries [] entries []]
  objectCache := fun _ => none
  blockCache := ⟨10 * 1024 * 1024, fun _ => none, fun _ _ => none⟩
  fetch := fun _ offset len => some ((pack.drop offset).take len)
  readFullObject := fun _ => none

def selfSha : Bytes := List.replicate 20 7

end PackReader

end GitNfs
