import GitNfs.Git.Pack

/-! # The objects of a pack

A pack holds records one after the other, and each record stands for an object: the one it stores, or what
its delta makes of the object it names as its base.
-/

namespace GitNfs

structure Placed where
  offset : Nat
  record : Record
  used : Nat
  deriving DecidableEq, Repr

/-- The `n` records from `pos` on. -/
def packRecords (inflate : Bytes → Option (Bytes × Nat)) (pack : Bytes) : Nat → Nat → Except PackError (List Placed)
  | 0, _ => .ok []
  | n + 1, pos =>
    match readRecord inflate pos (pack.drop pos) with
    | .error e => .error e
    | .ok (record, used) =>
      match packRecords inflate pack n (pos + used) with
      | .error e => .error e
      | .ok records => .ok (⟨pos, record, used⟩ :: records)

def GitRawObject.oid (obj : GitRawObject) : Str := computeGitSha1 obj.objType obj.data

inductive ObjectAt (records : List Placed) : Nat → GitRawObject → Prop where
  | object {p : Placed} {t : ObjectType} : p ∈ records → p.record.source = .object t →
      ObjectAt records p.offset ⟨t, p.record.data⟩
  | offset {p : Placed} {b : Nat} {base : GitRawObject} {data : Bytes} : p ∈ records →
      p.record.source = .delta (.offset b) → ObjectAt records b base →
      applyGitDelta base.data p.record.data = .ok data → ObjectAt records p.offset ⟨base.objType, data⟩
  | sha {p : Placed} {b : Nat} {base : GitRawObject} {data : Bytes} : p ∈ records →
      p.record.source = .delta (.sha base.oid) → ObjectAt records b base →
      applyGitDelta base.data p.record.data = .ok data → ObjectAt records p.offset ⟨base.objType, data⟩

theorem ObjectAt.placed {records : List Placed} {o : Nat} {obj : GitRawObject} (h : ObjectAt records o obj) :
    ∃ p ∈ records, p.offset = o := by
  cases h with
  | object hp _ => exact ⟨_, hp, rfl⟩
  | offset hp _ _ _ => exact ⟨_, hp, rfl⟩
  | sha hp _ _ _ => exact ⟨_, hp, rfl⟩

/-! ## Where the records are -/

/-- Each record starts where the one before it ends. -/
def Laid : Nat → List Placed → Prop
  | _, [] => True
  | pos, p :: ps => p.offset = pos ∧ 0 < p.used ∧ Laid (pos + p.used) ps

variable {inflate : Bytes → Option (Bytes × Nat)} {pack : Bytes}

theorem readObjectHeader_shorter {s rest : Bytes} {r : ObjectType × Nat}
    (h : readObjectHeader s = .ok (r, rest)) : rest.length < s.length := by
  cases s with
  | nil => exact absurd h (by simp [readObjectHeader])
  | cons c s =>
    rw [readObjectHeader] at h
    rw [List.length_cons]
    split at h
    · exact absurd h (by simp)
    · split_ifs at h
      · obtain ⟨-, rfl⟩ := Prod.mk.inj (Except.ok.inj h)
        exact Nat.lt_succ_self _
      · split at h
        · exact absurd h (by simp)
        · rename_i size rest' htail
          obtain ⟨-, rfl⟩ := Prod.mk.inj (Except.ok.inj h)
          exact Nat.lt_succ_of_le ((varintTail_reads _ _ _).length_le htail)

/-- The parts of a record: its header, where its data comes from, and the stream of the data. -/
theorem readRecord_parts {objOffset used : Nat} {s : Bytes} {record : Record}
    (h : readRecord inflate objOffset s = .ok (record, used)) :
    ∃ t rest stream n, readObjectHeader s = .ok ((t, record.size), rest) ∧
      readSource objOffset t rest = .ok (record.source, stream) ∧ inflate stream = some (record.data, n) ∧
      used = s.length - stream.length + n ∧ stream.length < s.length := by
  unfold readRecord at h
  split at h
  · exact absurd h (by simp)
  · rename_i t size rest hheader
    split at h
    · exact absurd h (by simp)
    · rename_i source stream hsource
      split at h
      · exact absurd h (by simp)
      · rename_i data n hinflate
        obtain ⟨rfl, rfl⟩ := Prod.mk.inj (Except.ok.inj h)
        exact ⟨t, rest, stream, n, hheader, hsource, hinflate, rfl,
          Nat.lt_of_le_of_lt ((readSource_reads _ _).length_le hsource) (readObjectHeader_shorter hheader)⟩

theorem packRecords_laid {n pos : Nat} {records : List Placed}
    (h : packRecords inflate pack n pos = .ok records) : Laid pos records := by
  induction n generalizing pos records with
  | zero =>
    obtain rfl := Except.ok.inj h
    trivial
  | succ n ih =>
    rw [packRecords] at h
    split at h
    · exact absurd h (by simp)
    · rename_i record used hread
      split at h
      · exact absurd h (by simp)
      · rename_i rest hrest
        obtain rfl := Except.ok.inj h
        obtain ⟨t, rest', stream, k, -, -, -, hused, hlt⟩ := readRecord_parts hread
        exact ⟨rfl, by simp only; omega, ih hrest⟩

theorem Laid.le_offset {records : List Placed} {pos : Nat} (h : Laid pos records) : ∀ p ∈ records, pos ≤ p.offset := by
  induction records generalizing pos with
  | nil => exact fun p hp => absurd hp (by simp)
  | cons q qs ih =>
    intro p hp
    obtain ⟨hq, hpos, hrest⟩ := h
    rcases List.mem_cons.mp hp with rfl | hp
    · omega
    · have := ih hrest p hp
      omega

theorem Laid.sorted {records : List Placed} {pos : Nat} (h : Laid pos records) :
    records.Pairwise fun p q => p.offset < q.offset := by
  induction records generalizing pos with
  | nil => exact .nil
  | cons q qs ih =>
    obtain ⟨hq, hpos, hrest⟩ := h
    refine .cons (fun p hp => ?_) (ih hrest)
    have := hrest.le_offset p hp
    omega

theorem Laid.offset_inj {records : List Placed} {pos : Nat} (hlaid : Laid pos records) {p q : Placed}
    (hp : p ∈ records) (hq : q ∈ records) (h : p.offset = q.offset) : p = q :=
  List.inj_on_of_nodup_map (List.pairwise_map.mpr (hlaid.sorted.imp fun hlt => Nat.ne_of_lt hlt)) hp hq h

/-- The record behind another one starts where that one ends. -/
theorem Laid.next {records : List Placed} {pos i : Nat} {p q : Placed} (h : Laid pos records)
    (hp : records[i]? = some p) (hq : records[i + 1]? = some q) : q.offset = p.offset + p.used := by
  induction records generalizing pos i with
  | nil => exact absurd hp (by simp)
  | cons r rs ih =>
    obtain ⟨hr, hpos, hrest⟩ := h
    cases i with
    | zero =>
      rw [List.getElem?_cons_zero] at hp
      obtain rfl := Option.some.inj hp
      cases rs with
      | nil => exact absurd hq (by simp)
      | cons r' rs =>
        rw [List.getElem?_cons_succ, List.getElem?_cons_zero] at hq
        obtain rfl := Option.some.inj hq
        rw [hrest.1, hr]
    | succ i => exact ih hrest hp hq

theorem packRecords_spec {n pos : Nat} {records : List Placed}
    (h : packRecords inflate pack n pos = .ok records) :
    ∀ p ∈ records, readRecord inflate p.offset (pack.drop p.offset) = .ok (p.record, p.used) := by
  induction n generalizing pos records with
  | zero =>
    obtain rfl := Except.ok.inj h
    exact fun p hp => absurd hp (by simp)
  | succ n ih =>
    rw [packRecords] at h
    split at h
    · exact absurd h (by simp)
    · rename_i record used hread
      split at h
      · exact absurd h (by simp)
      · rename_i rest hrest
        obtain rfl := Except.ok.inj h
        intro p hp
        rcases List.mem_cons.mp hp with rfl | hp
        · exact hread
        · exact ih hrest p hp

theorem unpackObjects_eq (n pos : Nat) (u : Unpacked) :
    unpackObjects inflate pack n pos u =
      match packRecords inflate pack n pos with
      | .error e => .error e
      | .ok records => .ok (records.foldl (fun u p => u.add p.offset p.record) u) := by
  induction n generalizing pos u with
  | zero => rfl
  | succ n ih =>
    rw [unpackObjects, packRecords]
    cases hread : readRecord inflate pos (pack.drop pos) with
    | error e => rfl
    | ok r =>
      obtain ⟨record, used⟩ := r
      simp only [ih]
      cases packRecords inflate pack n (pos + used) <;> rfl

/-! ## What the unpacker knows -/

namespace Unpacked

/-- Everything in the tables is an object of the pack, by its offset and by its name. -/
structure Sound (records : List Placed) (u : Unpacked) : Prop where
  byOffset : ∀ o obj, u.byOffset o = some obj → ObjectAt records o obj
  bySha : ∀ oid obj, u.bySha oid = some obj → obj.oid = oid ∧ ∃ o, ObjectAt records o obj
  named : ∀ o obj, u.byOffset o = some obj → (u.bySha obj.oid).isSome

/-- What waits for its base is a record of the pack. -/
def IsPending (records : List Placed) (item : PendingDelta) : Prop :=
  ∃ p ∈ records, p.offset = item.objOffset ∧ p.record.source = .delta item.base ∧
    p.record.data = item.deltaData

/-- The record at an offset is resolved or waits. -/
def Covers (u : Unpacked) (waiting : List PendingDelta) (o : Nat) : Prop :=
  (u.byOffset o).isSome ∨ ∃ item ∈ waiting, item.objOffset = o

variable {records : List Placed} {u : Unpacked}

theorem sound_empty (records : List Placed) : Sound records empty :=
  ⟨fun _ _ h => absurd h (by simp [empty]), fun _ _ h => absurd h (by simp [empty]),
    fun _ _ h => absurd h (by simp [empty])⟩

theorem Sound.insert (h : Sound records u) {o : Nat} {obj : GitRawObject} (hobj : ObjectAt records o obj) :
    Sound records (u.insert o obj) := by
  constructor
  · intro o' obj' h'
    by_cases ho : o' = o
    · subst ho
      rw [insert_byOffset, Function.update_self] at h'
      obtain rfl := Option.some.inj h'
      exact hobj
    · rw [insert_byOffset, Function.update_of_ne ho] at h'
      exact h.byOffset o' obj' h'
  · intro oid obj' h'
    rw [insert_bySha] at h'
    by_cases hoid : oid = obj.oid
    · subst hoid
      rw [GitRawObject.oid, Function.update_self] at h'
      obtain rfl := Option.some.inj h'
      exact ⟨rfl, o, hobj⟩
    · rw [← GitRawObject.oid, Function.update_of_ne hoid] at h'
      exact h.bySha oid obj' h'
  · intro o' obj' h'
    rw [insert_bySha, ← GitRawObject.oid]
    by_cases hoid : obj'.oid = obj.oid
    · rw [hoid, Function.update_self]
      rfl
    · rw [Function.update_of_ne hoid]
      by_cases ho : o' = o
      · subst ho
        rw [insert_byOffset, Function.update_self] at h'
        obtain rfl := Option.some.inj h'
        exact absurd rfl hoid
      · rw [insert_byOffset, Function.update_of_ne ho] at h'
        exact h.named o' obj' h'

theorem Sound.push (h : Sound records u) (item : PendingDelta) : Sound records (u.push item) :=
  ⟨h.byOffset, h.bySha, h.named⟩

theorem insert_byOffset_isSome (u : Unpacked) (o : Nat) (obj : GitRawObject) {o' : Nat}
    (h : o' = o ∨ (u.byOffset o').isSome) : ((u.insert o obj).byOffset o').isSome := by
  rw [insert_byOffset]
  by_cases ho : o' = o
  · rw [ho, Function.update_self]
    rfl
  · rw [Function.update_of_ne ho]
    exact h.resolve_left ho

/-- The loop over the records. -/
theorem foldl_add (hrec : List Placed) (u : Unpacked) (hin : ∀ p ∈ hrec, p ∈ records) (hu : Sound records u)
    (hpending : ∀ item ∈ u.pending, IsPending records item) (os : List Nat) (hos : ∀ o ∈ os, u.Covers u.pending o) :
    let u' := hrec.foldl (fun u p => u.add p.offset p.record) u
    Sound records u' ∧ (∀ item ∈ u'.pending, IsPending records item) ∧
      (∀ o ∈ os, u'.Covers u'.pending o) ∧ ∀ p ∈ hrec, u'.Covers u'.pending p.offset := by
  induction hrec generalizing u os with
  | nil => exact ⟨hu, hpending, hos, fun p hp => absurd hp (by simp)⟩
  | cons p ps ih =>
    have hp := hin p List.mem_cons_self
    have hstep : Sound records (u.add p.offset p.record) ∧
        (∀ item ∈ (u.add p.offset p.record).pending, IsPending records item) ∧
        (∀ o ∈ p.offset :: os, (u.add p.offset p.record).Covers (u.add p.offset p.record).pending o) := by
      unfold Unpacked.add
      cases hsource : p.record.source with
      | object t =>
        refine ⟨hu.insert (.object hp hsource), hpending, fun o ho => ?_⟩
        rcases List.mem_cons.mp ho with rfl | ho
        · exact .inl (insert_byOffset_isSome _ _ _ (.inl rfl))
        · rcases hos o ho with hsome | hwait
          · exact .inl (insert_byOffset_isSome _ _ _ (.inr hsome))
          · exact .inr hwait
      | delta base =>
        refine ⟨hu.push _, fun item hitem => ?_, fun o ho => ?_⟩
        · rcases List.mem_append.mp hitem with hitem | hitem
          · exact hpending item hitem
          · obtain rfl := List.mem_singleton.mp hitem
            exact ⟨p, hp, rfl, hsource, rfl⟩
        · rcases List.mem_cons.mp ho with rfl | ho
          · exact .inr ⟨_, List.mem_append_right _ List.mem_cons_self, rfl⟩
          · rcases hos o ho with hsome | ⟨item, hitem, heq⟩
            · exact .inl hsome
            · exact .inr ⟨item, List.mem_append_left _ hitem, heq⟩
    obtain ⟨hsound, hpend, hcov, hrest⟩ := ih (u.add p.offset p.record)
      (fun q hq => hin q (List.mem_cons_of_mem _ hq)) hstep.1 hstep.2.1 (p.offset :: os) hstep.2.2
    refine ⟨hsound, hpend, fun o ho => hcov o (List.mem_cons_of_mem _ ho), fun q hq => ?_⟩
    rcases List.mem_cons.mp hq with rfl | hq
    · exact hcov _ List.mem_cons_self
    · exact hrest q hq

theorem Sound.base (h : Sound records u) {item : PendingDelta} (hitem : IsPending records item)
    {base : GitRawObject} (hbase : u.baseInfo item.base = some base) {data : Bytes}
    (hdata : applyGitDelta base.data item.deltaData = .ok data) :
    ObjectAt records item.objOffset ⟨base.objType, data⟩ := by
  obtain ⟨p, hp, hoffset, hsource, hdelta⟩ := hitem
  rw [← hdelta] at hdata
  rw [← hoffset]
  cases hb : item.base with
  | offset b =>
    rw [hb] at hbase hsource
    exact .offset hp hsource (h.byOffset b base hbase) hdata
  | sha oid =>
    rw [hb] at hbase hsource
    obtain ⟨rfl, o, hobj⟩ := h.bySha oid base hbase
    exact .sha hp hsource hobj hdata

/-- A round leaves no more waiting than there was. -/
theorem resolveRound_length (items : List PendingDelta) (u u' : Unpacked) (hrun : resolveRound items u = .ok u') :
    u'.pending.length ≤ u.pending.length + items.length := by
  induction items generalizing u with
  | nil =>
    obtain rfl := Except.ok.inj hrun
    exact Nat.le_refl _
  | cons item items ih =>
    rw [resolveRound] at hrun
    rw [List.length_cons]
    split at hrun
    · have hlen := ih (u.push item) hrun
      rw [Unpacked.push, List.length_append, List.length_singleton] at hlen
      omega
    · split at hrun
      · exact absurd hrun (by simp)
      · have hlen := ih _ hrun
        rw [insert_pending] at hlen
        omega

/-- One round over what waits. -/
theorem resolveRound_spec (items : List PendingDelta) (u u' : Unpacked) (hrun : resolveRound items u = .ok u')
    (hu : Sound records u) (hpending : ∀ item ∈ u.pending ++ items, IsPending records item) :
    Sound records u' ∧ (∀ item ∈ u'.pending, IsPending records item) ∧
      ∀ o, u.Covers (u.pending ++ items) o → u'.Covers u'.pending o := by
  induction items generalizing u with
  | nil =>
    obtain rfl := Except.ok.inj hrun
    rw [List.append_nil] at hpending ⊢
    exact ⟨hu, hpending, fun o ho => ho⟩
  | cons item items ih =>
    rw [resolveRound] at hrun
    cases hbase : u.baseInfo item.base with
    | none =>
      rw [hbase] at hrun
      have hlist : (u.push item).pending ++ items = u.pending ++ item :: items := by
        rw [Unpacked.push, List.append_assoc, List.singleton_append]
      obtain ⟨hsound, hpend, hcov⟩ := ih (u.push item) hrun (hu.push item) (by rwa [hlist])
      refine ⟨hsound, hpend, fun o ho => hcov o ?_⟩
      rw [hlist]
      exact ho
    | some base =>
      rw [hbase] at hrun
      simp only at hrun
      split at hrun
      · exact absurd hrun (by simp)
      · rename_i data hdata
        have hitem := hpending item (List.mem_append_right _ List.mem_cons_self)
        have hobj := hu.base hitem hbase hdata
        obtain ⟨hsound, hpend, hcov⟩ := ih _ hrun (hu.insert hobj) (fun i hi => by
          rcases List.mem_append.mp hi with hi | hi
          · exact hpending i (List.mem_append_left _ hi)
          · exact hpending i (List.mem_append_right _ (List.mem_cons_of_mem _ hi)))
        refine ⟨hsound, hpend, fun o ho => hcov o ?_⟩
        rcases ho with hsome | ⟨i, hi, rfl⟩
        · exact .inl (insert_byOffset_isSome _ _ _ (.inr hsome))
        · rcases List.mem_append.mp hi with hi | hi
          · exact .inr ⟨i, List.mem_append_left _ hi, rfl⟩
          · rcases List.mem_cons.mp hi with rfl | hi
            · exact .inl (insert_byOffset_isSome _ _ _ (.inl rfl))
            · exact .inr ⟨i, List.mem_append_right _ hi, rfl⟩

/-- The rounds end with nothing waiting. -/
theorem resolveDeltas_spec (fuel : Nat) (u u' : Unpacked) (hrun : resolveDeltas fuel u = .ok u')
    (hu : Sound records u) (hpending : ∀ item ∈ u.pending, IsPending records item)
    (hfuel : u.pending.length ≤ fuel) :
    Sound records u' ∧ ∀ o, u.Covers u.pending o → (u'.byOffset o).isSome := by
  induction fuel generalizing u with
  | zero =>
    obtain rfl := Except.ok.inj hrun
    have hnil := List.eq_nil_of_length_eq_zero (Nat.le_zero.mp hfuel)
    refine ⟨hu, fun o ho => ho.resolve_right ?_⟩
    rw [hnil]
    exact fun ⟨i, hi, _⟩ => absurd hi (by simp)
  | succ fuel ih =>
    rw [resolveDeltas] at hrun
    split_ifs at hrun with hnil
    · obtain rfl := Except.ok.inj hrun
      refine ⟨hu, fun o ho => ho.resolve_right ?_⟩
      rw [hnil]
      exact fun ⟨i, hi, _⟩ => absurd hi (by simp)
    · split at hrun
      · exact absurd hrun (by simp)
      · rename_i next hround
        split_ifs at hrun with hstuck
        obtain ⟨hsound, hpend, hcov⟩ := resolveRound_spec _ _ next hround
          (⟨hu.byOffset, hu.bySha, hu.named⟩ : Sound records { u with pending := [] }) (by simpa using hpending)
        have hlen := resolveRound_length _ _ next hround
        rw [List.length_nil, Nat.zero_add] at hlen
        obtain ⟨hfinal, hall⟩ := ih next hrun hsound hpend (by omega)
        exact ⟨hfinal, fun o ho => hall o (hcov o ho)⟩

end Unpacked

/-- What is unpacked is the objects of the pack by their names, and every record stands for one. -/
theorem unpackPackfile_sound {m : Str → Option GitRawObject} (h : unpackPackfile inflate pack = .ok m) :
    ∃ records, packRecords inflate pack (fromBeBytes ((pack.drop 8).take 4)) 12 = .ok records ∧
      (∀ oid obj, m oid = some obj → obj.oid = oid ∧ ∃ o, ObjectAt records o obj) ∧
      ∀ p ∈ records, ∃ obj, ObjectAt records p.offset obj ∧ (m obj.oid).isSome := by
  unfold unpackPackfile at h
  simp only at h
  split_ifs at h
  rw [unpackObjects_eq] at h
  cases hrecords : packRecords inflate pack (fromBeBytes ((pack.drop 8).take 4)) 12 with
  | error e =>
    rw [hrecords] at h
    exact absurd h (by simp)
  | ok records =>
    rw [hrecords] at h
    simp only at h
    split at h
    · exact absurd h (by simp)
    · rename_i u hresolve
      obtain rfl := Except.ok.inj h
      obtain ⟨hsound, hpend, -, hcov⟩ := Unpacked.foldl_add records Unpacked.empty (fun p hp => hp)
        (Unpacked.sound_empty records) (fun i hi => absurd hi (by simp [Unpacked.empty])) []
        (fun o ho => absurd ho (by simp))
      obtain ⟨hfinal, hall⟩ := Unpacked.resolveDeltas_spec _ _ u hresolve hsound hpend (Nat.le_refl _)
      refine ⟨records, rfl, hfinal.bySha, fun p hp => ?_⟩
      obtain ⟨obj, hobj⟩ := Option.isSome_iff_exists.mp (hall p.offset (hcov p hp))
      exact ⟨obj, hfinal.byOffset _ _ hobj, hfinal.named _ _ hobj⟩

end GitNfs
