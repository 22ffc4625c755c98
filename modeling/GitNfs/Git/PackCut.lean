import GitNfs.Git.PackReader

/-! # Packs that are cut off

What is left of a pack whose write was cut off is unpacked to what the pack holds or not at all, unless the cut
goes through the last object.
-/

namespace GitNfs

/-- A decompressor that finds its stream cut off has taken all that is left of it. -/
def TakesAll (inflate : Bytes → Option (Bytes × Nat)) : Prop :=
  ∀ s data n k, inflate s = some (data, n) → k < n → ∀ data' n', inflate (s.take k) = some (data', n') → n' = k

def recordsOf (inflate : Bytes → Option (Bytes × Nat)) (pack : Bytes) : Except PackError (List Placed) :=
  packRecords inflate pack (fromBeBytes ((pack.drop 8).take 4)) 12

/-- The cut does not go through the last object. -/
def CutBeside (inflate : Bytes → Option (Bytes × Nat)) (pack : Bytes) (n : Nat) : Prop :=
  ∀ records p, recordsOf inflate pack = .ok records → records.getLast? = some p →
    n ≤ p.offset ∨ p.offset + p.used ≤ n

variable {inflate : Bytes → Option (Bytes × Nat)} {pack : Bytes}

theorem readRecord_nil (objOffset : Nat) : ∃ e, readRecord inflate objOffset [] = .error e := ⟨.eofObject, rfl⟩

/-- The record that a cut goes through takes all that is left. -/
theorem readRecord_cut_used (hinflate : Inflates inflate) (htakes : TakesAll inflate) {objOffset used used' k : Nat}
    {s : Bytes} {record record' : Record} (h : readRecord inflate objOffset s = .ok (record, used)) (hk : k < used)
    (h' : readRecord inflate objOffset (s.take k) = .ok (record', used')) : used' = k := by
  obtain ⟨t, rest, stream, n, hheader, hsource, hdata, hused, -⟩ := readRecord_parts h
  obtain ⟨t', rest', stream', n', hheader', hsource', hdata', hused', hshorter'⟩ := readRecord_parts h'
  -- the stream of the cut record is the beginning of the stream
  have hwhole := readObjectHeader_reads.of_take hheader'
  rw [hheader] at hwhole
  obtain ⟨hsame, hrest⟩ := Prod.mk.inj (Except.ok.inj hwhole)
  obtain ⟨rfl, -⟩ := Prod.mk.inj hsame
  have hwhole := (readSource_reads objOffset t).append hsource' (s.drop k)
  rw [← hrest, hsource] at hwhole
  obtain ⟨-, hstream⟩ := Prod.mk.inj (Except.ok.inj hwhole)
  have hstream' : stream' = stream.take stream'.length := by rw [hstream, List.take_left]
  have hlen := congrArg List.length hstream
  rw [List.length_append, List.length_drop] at hlen
  have hle₁ := readObjectHeader_reads.length_le hheader
  have hle₂ := (readSource_reads objOffset t).length_le hsource
  have hn := hinflate.consumed stream record.data n hdata
  rw [hstream'] at hdata'
  have htake := htakes stream record.data n stream'.length hdata (by omega) _ _ hdata'
  rw [List.length_take] at hused' hshorter'
  omega

theorem packRecords_take (hinflate : Inflates inflate) (htakes : TakesAll inflate) {count pos n : Nat}
    {records records' : List Placed} (h : packRecords inflate pack count pos = .ok records)
    (hcut : ∀ p, records.getLast? = some p → n ≤ p.offset ∨ p.offset + p.used ≤ n)
    (h' : packRecords inflate (pack.take n) count pos = .ok records') : records' = records := by
  induction count generalizing pos records records' with
  | zero =>
    obtain rfl := Except.ok.inj h
    obtain rfl := Except.ok.inj h'
    rfl
  | succ count ih =>
    unfold packRecords at h h'
    cases hread : readRecord inflate pos (pack.drop pos) with
    | error e => simp [hread] at h
    | ok r =>
      obtain ⟨record, used⟩ := r
      cases hrest : packRecords inflate pack count (pos + used) with
      | error e => simp [hread, hrest] at h
      | ok rest =>
        simp only [hread, hrest, Except.ok.injEq] at h
        subst h
        rw [List.drop_take] at h'
        cases hread' : readRecord inflate pos ((pack.drop pos).take (n - pos)) with
        | error e => simp [hread'] at h'
        | ok r' =>
          obtain ⟨record', used'⟩ := r'
          cases hrest' : packRecords inflate (pack.take n) count (pos + used') with
          | error e => simp [hread', hrest'] at h'
          | ok rest' =>
            simp only [hread', hrest', Except.ok.injEq] at h'
            by_cases hused : used ≤ n - pos
            · rw [readRecord_take hinflate hread hused] at hread'
              obtain ⟨rfl, rfl⟩ := Prod.mk.inj (Except.ok.inj hread')
              have hlast : ∀ p, rest.getLast? = some p → n ≤ p.offset ∨ p.offset + p.used ≤ n := by
                intro p hp
                refine hcut p ?_
                cases rest with
                | nil => cases hp
                | cons q rest => rwa [List.getLast?_cons_cons]
              rw [← h', ih hrest hlast hrest']
            · -- the cut goes through the record or stands in front of it
              exfalso
              have htaken := readRecord_cut_used hinflate htakes hread (by omega) hread'
              have hpos : pos < n := by
                by_contra hle
                obtain ⟨e, he⟩ : ∃ e, readRecord inflate pos [] = .error e := readRecord_nil pos
                rw [show n - pos = 0 by omega, List.take_zero, he] at hread'
                cases hread'
              cases count with
              | zero =>
                obtain rfl := Except.ok.inj hrest
                have hlast := hcut ⟨pos, record, used⟩ rfl
                simp only at hlast
                omega
              | succ count =>
                obtain ⟨e, he⟩ : ∃ e, readRecord inflate n [] = .error e := readRecord_nil n
                unfold packRecords at hrest'
                have hend : (pack.take n).drop n = [] := by rw [List.drop_take, Nat.sub_self, List.take_zero]
                rw [htaken, show pos + (n - pos) = n by omega, hend, he] at hrest'
                cases hrest'

/-- What is unpacked follows from the records. -/
theorem unpackPackfile_records {m : Str → Option GitRawObject} (h : unpackPackfile inflate pack = .ok m)
    {records : List Placed} (hrecords : recordsOf inflate pack = .ok records) :
    ∃ u, resolveDeltas (records.foldl (fun u p => u.add p.offset p.record) Unpacked.empty).pending.length
      (records.foldl (fun u p => u.add p.offset p.record) Unpacked.empty) = .ok u ∧ u.bySha = m := by
  unfold recordsOf at hrecords
  unfold unpackPackfile at h
  simp only at h
  split_ifs at h
  rw [unpackObjects_eq, hrecords] at h
  simp only at h
  split at h
  · cases h
  · rename_i u hu
    exact ⟨u, hu, Except.ok.inj h⟩

/-- What is left of a pack is unpacked to what the pack holds, if it is unpacked. -/
theorem unpackPackfile_take (hinflate : Inflates inflate) (htakes : TakesAll inflate) {n : Nat}
    {m m' : Str → Option GitRawObject} (h : unpackPackfile inflate pack = .ok m) (hcut : CutBeside inflate pack n)
    (h' : unpackPackfile inflate (pack.take n) = .ok m') : m' = m := by
  obtain ⟨records, hrecords, -⟩ := unpackPackfile_sound h
  obtain ⟨records', hrecords', -⟩ := unpackPackfile_sound h'
  have hn : 12 ≤ n := by
    by_contra hshort
    unfold unpackPackfile at h'
    rw [if_pos (by rw [List.length_take]; omega)] at h'
    cases h'
  have hcount : ((pack.take n).drop 8).take 4 = (pack.drop 8).take 4 := by
    rw [List.drop_take, List.take_take, min_eq_left (by omega)]
  have hsame : records' = records := by
    rw [hcount] at hrecords'
    exact packRecords_take hinflate htakes hrecords (fun p hp => hcut records p hrecords hp) hrecords'
  subst hsame
  obtain ⟨u, hu, rfl⟩ := unpackPackfile_records h hrecords
  obtain ⟨u', hu', rfl⟩ := unpackPackfile_records h' hrecords'
  rw [hu, Except.ok.injEq] at hu'
  rw [hu']

/-! ## Cuts behind the last object and in front of it -/

theorem Laid.ends {records : List Placed} {pos : Nat} (h : Laid pos records) {p : Placed}
    (hp : records.getLast? = some p) : ∀ q ∈ records, q.offset + q.used ≤ p.offset + p.used := by
  induction records generalizing pos with
  | nil => cases hp
  | cons q records ih =>
    obtain ⟨hq, hpos, hrest⟩ := h
    cases records with
    | nil =>
      have hsame : q = p := Option.some.inj hp
      intro q' hq'
      rw [List.mem_singleton.mp hq', hsame]
    | cons q₁ records =>
      rw [List.getLast?_cons_cons] at hp
      have hends := ih hrest hp
      intro q' hq'
      rcases List.mem_cons.mp hq' with rfl | hq'
      · have hnext := hrest.le_offset q₁ List.mem_cons_self
        have hend := hends q₁ List.mem_cons_self
        omega
      · exact hends q' hq'

theorem packRecords_take_ok (hinflate : Inflates inflate) {count pos n : Nat} {records : List Placed}
    (h : packRecords inflate pack count pos = .ok records) (hend : ∀ p ∈ records, p.offset + p.used ≤ n) :
    packRecords inflate (pack.take n) count pos = .ok records := by
  induction count generalizing pos records with
  | zero => exact h
  | succ count ih =>
    unfold packRecords at h ⊢
    cases hread : readRecord inflate pos (pack.drop pos) with
    | error e => simp [hread] at h
    | ok r =>
      obtain ⟨record, used⟩ := r
      cases hrest : packRecords inflate pack count (pos + used) with
      | error e => simp [hread, hrest] at h
      | ok rest =>
        simp only [hread, hrest, Except.ok.injEq] at h
        subst h
        have hhere := hend _ List.mem_cons_self
        simp only at hhere
        rw [List.drop_take, readRecord_take hinflate hread (by omega)]
        simp only
        rw [ih hrest fun p hp => hend p (List.mem_cons_of_mem _ hp)]

theorem unpackPackfile_take_ok (hinflate : Inflates inflate) {n : Nat} {m : Str → Option GitRawObject}
    (h : unpackPackfile inflate pack = .ok m) {records : List Placed} (hrecords : recordsOf inflate pack = .ok records)
    {p : Placed} (hp : records.getLast? = some p) (hn : p.offset + p.used ≤ n) :
    unpackPackfile inflate (pack.take n) = .ok m := by
  have hlaid : Laid 12 records := packRecords_laid hrecords
  have hfirst := hlaid.le_offset p (List.mem_of_getLast? hp)
  have hlong : 12 ≤ n := by omega
  have htake {a b : Nat} (hab : a + b ≤ n) : ((pack.take n).drop a).take b = (pack.drop a).take b := by
    rw [List.drop_take, List.take_take, min_eq_left (by omega)]
  have hmagic : (pack.take n).take 4 = pack.take 4 := by rw [List.take_take, min_eq_left (by omega)]
  have hall : recordsOf inflate (pack.take n) = .ok records := by
    unfold recordsOf
    rw [htake (by omega)]
    exact packRecords_take_ok hinflate hrecords fun q hq => (hlaid.ends hp q hq).trans hn
  unfold recordsOf at hall hrecords
  rw [htake (by omega)] at hall
  unfold unpackPackfile at h ⊢
  simp only at h ⊢
  rw [hmagic, htake (by omega), htake (by omega)]
  split_ifs at h with hshort hword hversion
  rw [if_neg (by rw [List.length_take]; omega), if_neg hword, if_neg hversion]
  rw [unpackObjects_eq, hrecords] at h
  rw [unpackObjects_eq, hall]
  exact h

/-- A pack that was cut off beside its last object can be unpacked if and only if the last object is in front of the
cut. -/
theorem unpackPackfile_take_iff (hinflate : Inflates inflate) (htakes : TakesAll inflate) {n : Nat}
    {m : Str → Option GitRawObject} (h : unpackPackfile inflate pack = .ok m) {records : List Placed}
    (hrecords : recordsOf inflate pack = .ok records) {p : Placed} (hp : records.getLast? = some p)
    (hcut : CutBeside inflate pack n) :
    (∃ m', unpackPackfile inflate (pack.take n) = .ok m') ↔ p.offset + p.used ≤ n := by
  constructor
  · rintro ⟨m', h'⟩
    refine (hcut records p hrecords hp).resolve_left fun hfront => ?_
    obtain ⟨records', hrecords', -⟩ := unpackPackfile_sound h'
    have hn : 12 ≤ n := by
      by_contra hshort
      unfold unpackPackfile at h'
      rw [if_pos (by rw [List.length_take]; omega)] at h'
      cases h'
    rw [List.drop_take, List.take_take, min_eq_left (by omega)] at hrecords'
    have hlast := fun p hp => hcut records p hrecords hp
    obtain rfl := packRecords_take hinflate htakes hrecords hlast hrecords'
    have hread := packRecords_spec hrecords' p (List.mem_of_getLast? hp)
    rw [List.drop_take, show n - p.offset = 0 by omega, List.take_zero] at hread
    cases hread
  · exact fun hn => ⟨m, unpackPackfile_take_ok hinflate h hrecords hp hn⟩

end GitNfs
