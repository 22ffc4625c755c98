import GitNfs.Fleet.Proc
import GitNfs.Lib.Run

/-! # The sequences of the logs

Servers that share a WAL directory, or the names under a prefix of a bucket. Only the names count here. A
sequence is chosen from a listing when a server starts, and counted on from there at every commit.
-/

namespace GitNfs

/-- `str::parse` of a `u64`: digits, perhaps with a plus in front. -/
def parseU64 (s : Str) : Option UInt64 :=
  let digits := if s.head? = some '+' then s.tail else s
  let n := Nat.ofDigitChars 10 digits 0
  if digits ≠ [] ∧ digits.all Char.isDigit ∧ n < 2 ^ 64 then some (UInt64.ofNat n) else none

/-- `str::strip_suffix`. -/
def stripSuffix (suffix s : Str) : Option Str :=
  if suffix.isSuffixOf s then some (s.take (s.length - suffix.length)) else none

theorem stripSuffix_append (s suffix : Str) : stripSuffix suffix (s ++ suffix) = some s := by
  unfold stripSuffix
  rw [if_pos (List.isSuffixOf_iff_suffix.mpr (List.suffix_append s suffix)), List.length_append,
    Nat.add_sub_cancel, List.take_left]

/-- A number is read back from what `format!` prints of it. -/
theorem parseU64_decimal (seq : UInt64) : parseU64 (decimal seq.toNat) = some seq := by
  have hdigit : ∀ c ∈ decimal seq.toNat, c.isDigit = true := by
    intro c hc
    exact Nat.isDigit_of_mem_toDigits (by omega) (by omega) hc
  have hplus : (decimal seq.toNat).head? ≠ some '+' := by
    intro h
    exact absurd (hdigit '+' (List.mem_of_head? h)) (by decide)
  have hne : decimal seq.toNat ≠ [] := Nat.toDigits_ne_nil
  have hval : Nat.ofDigitChars 10 (decimal seq.toNat) 0 = seq.toNat := Nat.ofDigitChars_ten_toDigits
  unfold parseU64
  simp only [if_neg hplus, hval]
  rw [if_pos ⟨hne, List.all_eq_true.mpr hdigit, seq.toNat_lt⟩, UInt64.ofNat_toNat]

structure WalLocation where
  kind : BackendKind
  /-- What the names in a bucket start with. -/
  namePrefix : Str
  names : List Str

namespace WalLocation

def objectName (loc : WalLocation) (seq : UInt64) (suffix : Str) : Str :=
  match loc.kind with
  | .localFs => decimal seq.toNat ++ suffix
  | .gcs => loc.namePrefix ++ (decimal seq.toNat ++ suffix)

def logName (loc : WalLocation) (seq : UInt64) : Str := loc.objectName seq ".log".toList

def doneName (loc : WalLocation) (seq : UInt64) : Str := loc.objectName seq ".done".toList

def packName (loc : WalLocation) (seq : UInt64) : Str := loc.objectName seq ".pack".toList

def idxName (loc : WalLocation) (seq : UInt64) : Str := loc.objectName seq ".idx".toList

/-- What a listing answers: the whole directory, or one page of the names under the prefix. -/
def listObjects (loc : WalLocation) (page : Nat) : List Str :=
  match loc.kind with
  | .localFs => loc.names
  | .gcs => (sortBy compareStr (loc.names.filter loc.namePrefix.isPrefixOf)).take page

/-- The sequence that a listed name stands for, if it is the name of a log. -/
def logSequence (loc : WalLocation) (name : Str) : Option UInt64 :=
  let stripped :=
    match loc.kind with
    | .localFs => name
    | .gcs => if loc.namePrefix.isPrefixOf name then name.drop loc.namePrefix.length else name
  (stripSuffix ".log".toList stripped).bind parseU64

def listLogSequences (loc : WalLocation) (page : Nat) : List UInt64 :=
  ((loc.listObjects page).filterMap loc.logSequence).insertionSort (· ≤ ·)

/-- A name that is listed reads as the log of a sequence. -/
def Listed (loc : WalLocation) (page : Nat) (seq : UInt64) : Prop :=
  ∃ name ∈ loc.listObjects page, loc.logSequence name = some seq

def put (loc : WalLocation) (name : Str) : WalLocation :=
  { loc with names := if loc.names.contains name then loc.names else loc.names ++ [name] }

def HasLog (loc : WalLocation) (seq : UInt64) : Prop := loc.logName seq ∈ loc.names

instance (loc : WalLocation) (seq : UInt64) : Decidable (loc.HasLog seq) :=
  inferInstanceAs (Decidable (loc.logName seq ∈ loc.names))

/-! ## Names -/

theorem logSequence_logName (loc : WalLocation) (seq : UInt64) :
    loc.logSequence (loc.logName seq) = some seq := by
  unfold logSequence logName objectName
  cases loc.kind with
  | localFs => simp only [stripSuffix_append, Option.bind_some, parseU64_decimal]
  | gcs =>
    have hpre : loc.namePrefix.isPrefixOf (loc.namePrefix ++ (decimal seq.toNat ++ ".log".toList)) = true :=
      List.isPrefixOf_iff_prefix.mpr (List.prefix_append _ _)
    simp only [if_pos hpre, List.drop_left, stripSuffix_append, Option.bind_some, parseU64_decimal]

theorem logName_injective (loc : WalLocation) {seq seq' : UInt64} (h : loc.logName seq = loc.logName seq') :
    seq = seq' :=
  Option.some.inj (by rw [← loc.logSequence_logName seq, h, logSequence_logName])

theorem mem_put (loc : WalLocation) (name other : Str) :
    other ∈ (loc.put name).names ↔ other ∈ loc.names ∨ other = name := by
  unfold put
  dsimp only
  split_ifs with h
  · constructor
    · exact .inl
    · rintro (h' | rfl)
      · exact h'
      · exact List.contains_iff_mem.mp h
  · rw [List.mem_append, List.mem_singleton]

theorem hasLog_put (loc : WalLocation) (name : Str) (seq : UInt64) :
    (loc.put name).HasLog seq ↔ loc.HasLog seq ∨ loc.logName seq = name :=
  loc.mem_put name (loc.logName seq)

theorem hasLog_put_log (loc : WalLocation) (seq seq' : UInt64) :
    (loc.put (loc.logName seq)).HasLog seq' ↔ loc.HasLog seq' ∨ seq' = seq := by
  rw [hasLog_put]
  constructor
  · rintro (h | h)
    · exact .inl h
    · exact .inr (loc.logName_injective h)
  · rintro (h | rfl)
    · exact .inl h
    · exact .inr rfl

/-- A name with another ending is no log's. -/
theorem objectName_ne_logName (loc : WalLocation) (seq seq' : UInt64) {suffix : Str}
    (h : suffix.getLast? ≠ some 'g') (hne : suffix ≠ []) : loc.logName seq ≠ loc.objectName seq' suffix := by
  have hlog : (loc.logName seq).getLast? = some 'g' := by
    unfold logName objectName
    cases loc.kind <;> simp [List.getLast?_append]
  have hother : (loc.objectName seq' suffix).getLast? = suffix.getLast? := by
    unfold objectName
    rw [List.getLast?_eq_some_getLast hne]
    cases loc.kind <;> simp [List.getLast?_append, List.getLast?_eq_some_getLast hne]
  intro heq
  rw [heq, hother] at hlog
  exact h hlog

theorem mem_listLogSequences (loc : WalLocation) (page : Nat) (seq : UInt64) :
    seq ∈ loc.listLogSequences page ↔ loc.Listed page seq := by
  unfold listLogSequences Listed
  rw [List.mem_insertionSort, List.mem_filterMap]

/-- A listing that leaves no name out shows every log. -/
theorem listed_whole (loc : WalLocation) (page : Nat) (hwhole : loc.kind = .gcs → loc.names.length ≤ page)
    {seq : UInt64} (h : loc.HasLog seq) : loc.Listed page seq := by
  have hlisted : loc.logName seq ∈ loc.listObjects page := by
    unfold listObjects
    cases hkind : loc.kind with
    | localFs => exact h
    | gcs =>
      have hpre : loc.namePrefix.isPrefixOf (loc.logName seq) = true := by
        unfold logName objectName
        simp only [hkind]
        exact List.isPrefixOf_iff_prefix.mpr (List.prefix_append _ _)
      have hle : (sortBy compareStr (loc.names.filter loc.namePrefix.isPrefixOf)).length ≤ page := by
        unfold sortBy
        rw [List.length_insertionSort]
        exact le_trans (List.length_filter_le _ _) (hwhole hkind)
      simp only
      rw [List.take_of_length_le hle]
      unfold sortBy
      exact (List.mem_insertionSort _).mpr (List.mem_filter.mpr ⟨h, hpre⟩)
  exact ⟨_, hlisted, loc.logSequence_logName seq⟩

/-- A location that holds the logs of a store under their names, and nothing else that reads as a log. -/
structure Shows (loc : WalLocation) (store : WalStore) : Prop where
  logs : ∀ seq : UInt64, loc.HasLog seq ↔ seq.toNat ∈ store.logs
  bound : ∀ seq ∈ store.logs, seq < 2 ^ 64
  names : ∀ name ∈ loc.names, ∀ seq, loc.logSequence name = some seq → name = loc.logName seq
  nodup : loc.names.Nodup

theorem listObjects_sublist (loc : WalLocation) (page : Nat) (hnodup : loc.names.Nodup) :
    (∀ name ∈ loc.listObjects page, name ∈ loc.names) ∧ (loc.listObjects page).Nodup := by
  unfold listObjects
  cases loc.kind with
  | localFs => exact ⟨fun _ h => h, hnodup⟩
  | gcs =>
    have hperm := List.perm_insertionSort (fun a b => (compareStr a b).isLE = true)
      (loc.names.filter loc.namePrefix.isPrefixOf)
    refine ⟨?_, ?_⟩
    · intro name hname
      exact List.mem_of_mem_filter (hperm.mem_iff.mp (List.mem_of_mem_take hname))
    · exact (hperm.nodup_iff.mpr (hnodup.filter _)).sublist (List.take_sublist _ _)

/-- The names read as the logs of the store do. -/
theorem Shows.listLogSequences {loc : WalLocation} {store : WalStore} (h : loc.Shows store) (page : Nat)
    (hwhole : loc.kind = .gcs → loc.names.length ≤ page) :
    (loc.listLogSequences page).map UInt64.toNat = store.listLogSequences := by
  obtain ⟨hsub, hnodup⟩ := loc.listObjects_sublist page h.nodup
  have hsorted : (loc.listLogSequences page).Pairwise (· ≤ ·) := List.pairwise_insertionSort _ _
  have hlisted : (loc.listLogSequences page).Nodup := by
    refine (List.perm_insertionSort _ _).nodup_iff.mpr ?_
    refine List.pairwise_filterMap.mpr (hnodup.imp_of_mem ?_)
    intro name name' hname hname' hne seq hseq seq' hseq' heq
    subst heq
    apply hne
    rw [h.names name (hsub name hname) seq hseq, h.names name' (hsub name' hname') seq hseq']
  apply List.Perm.eq_of_pairwise' (r := (· ≤ ·))
  · exact List.pairwise_map.mpr (hsorted.imp fun hle => UInt64.le_iff_toNat_le.mp hle)
  · exact List.pairwise_insertionSort _ _
  refine (List.perm_ext_iff_of_nodup ?_ ?_).mpr ?_
  · exact hlisted.map fun _ _ => UInt64.toNat_inj.mp
  · exact (List.perm_insertionSort _ _).nodup_iff.mpr store.logs.keys_nodup
  intro n
  rw [WalStore.mem_listLogSequences, List.mem_map]
  constructor
  · rintro ⟨seq, hseq, rfl⟩
    obtain ⟨name, hname, hparse⟩ := (loc.mem_listLogSequences page seq).mp hseq
    have hmem := hsub name hname
    rw [h.names name hmem seq hparse] at hmem
    exact (h.logs seq).mp hmem
  · intro hn
    have hlt := h.bound n hn
    have hval : (UInt64.ofNat n).toNat = n := UInt64.toNat_ofNat_of_lt' hlt
    have hlisted := loc.listed_whole page hwhole ((h.logs (UInt64.ofNat n)).mpr (by rwa [hval]))
    exact ⟨UInt64.ofNat n, (loc.mem_listLogSequences page _).mpr hlisted, hval⟩

end WalLocation

/-! ## The servers -/

/-- `last + 1`, or the first sequence. Where additions are not checked, 0 follows the last one of all. -/
def nextSequence (seqs : List UInt64) : UInt64 := seqs.getLast?.elim 0 (· + 1)

/-- A server that starts chooses the sequence that the names say. -/
theorem Proc.recovered_nextSequence {p : Proc} {d : Durable} (dirLen : Option Nat)
    (built : Option RecoveredPackResult) (hstart : p.purpose = .startUp) {loc : WalLocation}
    (h : loc.Shows d.wal) (page : Nat) (hwhole : loc.kind = .gcs → loc.names.length ≤ page)
    (hmax : ∀ last, loc.Listed page last → last.toNat + 1 < 2 ^ 64) :
    (p.recovered d dirLen built).server.wal.activeSeq = (nextSequence (loc.listLogSequences page)).toNat := by
  have hone : (1 : UInt64).toNat = 1 := rfl
  unfold Proc.recovered nextSequence
  simp only [hstart, WalManager.new, ← h.listLogSequences page hwhole, List.getLast?_map]
  cases hlast : (loc.listLogSequences page).getLast? with
  | none => rfl
  | some last =>
    have := hmax last ((loc.mem_listLogSequences page last).mp (List.mem_of_getLast? hlast))
    simp only [Option.map_some, Option.elim_some, UInt64.toNat_add, hone]
    omega

namespace Allocation

/-- How far a server is. It opens the log of its sequence when it starts and when it has advanced. -/
inductive Phase where
  | starting
  | serving
  | committing
  deriving DecidableEq, Repr

structure Holder where
  activeSeq : UInt64
  phase : Phase
  deriving DecidableEq, Repr

structure Site where
  loc : WalLocation
  servers : Nat → Option Holder

/-- The objects that `mark_log_done` writes. -/
inductive Marker where
  | done
  | pack
  | idx
  deriving DecidableEq, Repr

/-- A writer that cannot be opened may leave its object behind. -/
inductive OpenFault where
  | refused
  | unanswered
  deriving DecidableEq, Repr

inductive Action where
  /-- The listing of a start, which answers with so much of a page. -/
  | list (i page : Nat)
  | openWriter (i : Nat) (fault : Option OpenFault)
  | advanceSeq (i : Nat)
  | mark (i : Nat) (marker : Marker) (seq : UInt64)
  | stop (i : Nat)
  deriving DecidableEq, Repr

end Allocation

def WalLocation.markerName (loc : WalLocation) (seq : UInt64) : Allocation.Marker → Str
  | .done => loc.doneName seq
  | .pack => loc.packName seq
  | .idx => loc.idxName seq

namespace Allocation

/-- The sequence that `open_writer` is called with next, if this server goes on as it does. -/
def Holder.next (h : Holder) : Nat :=
  match h.phase with
  | .serving => h.activeSeq.toNat + 1
  | _ => h.activeSeq.toNat

namespace Site

def initial (loc : WalLocation) : Site := ⟨loc, fun _ => none⟩

def set (s : Site) (i : Nat) (h : Option Holder) : Site := { s with servers := Function.update s.servers i h }

/-- A start that cannot open its log ends the server. A commit that cannot is only noted down. -/
def opened (h : Holder) (fault : Option OpenFault) : Option Holder :=
  if h.phase = .starting ∧ fault.isSome then none else some { h with phase := .serving }

def step (s : Site) : Action → Option Site
  | .list i page =>
    match s.servers i with
    | some _ => none
    | none => some (s.set i (some ⟨nextSequence (s.loc.listLogSequences page), .starting⟩))
  | .openWriter i fault =>
    match s.servers i with
    | none => none
    | some h =>
      if h.phase = .serving then none
      else
        let loc := if fault = some .refused then s.loc else s.loc.put (s.loc.logName h.activeSeq)
        some { s.set i (opened h fault) with loc }
  | .advanceSeq i =>
    match s.servers i with
    | none => none
    | some h => if h.phase = .serving then some (s.set i (some ⟨h.activeSeq + 1, .committing⟩)) else none
  | .mark i marker seq =>
    match s.servers i with
    | none => none
    | some _ => some { s with loc := s.loc.put (s.loc.markerName seq marker) }
  | .stop i => some (s.set i none)

/-- The sequence of a call of `open_writer`. -/
def opens (s : Site) : Action → Option UInt64
  | .openWriter i _ => (s.servers i).bind fun h => if h.phase = .serving then none else some h.activeSeq
  | _ => none

/-! ## No log is opened twice -/

/-- Every server is to go on behind all the logs that there are. -/
def Ahead (s : Site) : Prop :=
  ∀ i h, s.servers i = some h → ∀ seq, s.loc.HasLog seq → seq.toNat < h.next

/-- A start sees the last log, a log is opened only when all other servers are past it, and the sequences
do not run out. -/
def Unshared (s : Site) : Action → Prop
  | .list _ page =>
    (∀ seq, s.loc.HasLog seq → ∃ last, s.loc.Listed page last ∧ seq ≤ last) ∧
      ∀ last, s.loc.Listed page last → last.toNat + 1 < 2 ^ 64
  | .openWriter i fault =>
    fault = some .refused ∨ ∀ h, s.servers i = some h → ∀ j h', j ≠ i → s.servers j = some h' →
      h.activeSeq.toNat < h'.next
  | .advanceSeq i => ∀ h, s.servers i = some h → h.activeSeq.toNat + 1 < 2 ^ 64
  | _ => True

theorem lt_nextSequence {loc : WalLocation} {page : Nat}
    (hmax : ∀ last, loc.Listed page last → last.toNat + 1 < 2 ^ 64) {seq : UInt64}
    (h : loc.Listed page seq) : seq.toNat < (nextSequence (loc.listLogSequences page)).toNat := by
  simp only [← loc.mem_listLogSequences page] at hmax h
  have hsorted : (loc.listLogSequences page).Pairwise (· ≤ ·) := List.pairwise_insertionSort _ _
  obtain ⟨front, last, hlist⟩ : ∃ front last, loc.listLogSequences page = front ++ [last] := by
    refine ⟨_, _, (List.dropLast_append_getLast ?_).symm⟩
    exact List.ne_nil_of_mem h
  rw [hlist] at hsorted hmax h ⊢
  have hle : seq ≤ last := by
    rcases List.mem_append.mp h with hfront | hlast
    · exact (List.pairwise_append.mp hsorted).2.2 seq hfront last (by simp)
    · exact UInt64.le_of_eq (List.mem_singleton.mp hlast)
  have hlast := hmax last (by simp)
  unfold nextSequence
  rw [List.getLast?_append, List.getLast?_singleton, Option.some_or, Option.elim_some, UInt64.toNat_add]
  have := UInt64.le_iff_toNat_le.mp hle
  have hone : (1 : UInt64).toNat = 1 := rfl
  rw [hone]
  omega

theorem set_ahead {s : Site} (loc : WalLocation) {i : Nat} {new : Option Holder}
    (hothers : ∀ j h, j ≠ i → s.servers j = some h → ∀ seq, loc.HasLog seq → seq.toNat < h.next)
    (hnew : ∀ h, new = some h → ∀ seq, loc.HasLog seq → seq.toNat < h.next) :
    Ahead { s.set i new with loc } := by
  intro j h hj seq hlog
  unfold set at hj
  dsimp only at hj hlog
  by_cases hji : j = i
  · subst hji
    rw [Function.update_self] at hj
    exact hnew h hj seq hlog
  · rw [Function.update_of_ne hji] at hj
    exact hothers j h hji hj seq hlog

theorem list_ahead {s s' : Site} {i page : Nat} (hs : s.Ahead) (hok : s.Unshared (.list i page))
    (h : s.step (.list i page) = some s') : s'.Ahead := by
  obtain ⟨hseen, hmax⟩ := hok
  unfold step at h
  dsimp only at h
  split at h
  · simp at h
  · simp only [Option.some.injEq] at h
    subst h
    apply set_ahead s.loc (fun j h _ => hs j h)
    rintro _ ⟨⟩ seq hlog
    obtain ⟨last, hlast, hle⟩ := hseen seq hlog
    have := lt_nextSequence hmax hlast
    have := UInt64.le_iff_toNat_le.mp hle
    unfold Holder.next
    dsimp only
    omega

theorem advanceSeq_ahead {s s' : Site} {i : Nat} (hs : s.Ahead) (hok : s.Unshared (.advanceSeq i))
    (h : s.step (.advanceSeq i) = some s') : s'.Ahead := by
  unfold step at h
  dsimp only at h
  split at h
  · simp at h
  · rename_i old hold
    split_ifs at h with hserving
    simp only [Option.some.injEq] at h
    subst h
    apply set_ahead s.loc (fun j h _ => hs j h)
    rintro _ ⟨⟩ seq hlog
    have hlt := hs i old hold seq hlog
    have hwrap := hok old hold
    have hone : (1 : UInt64).toNat = 1 := rfl
    unfold Holder.next at hlt ⊢
    rw [hserving] at hlt
    dsimp only at hlt ⊢
    rw [UInt64.toNat_add, hone]
    omega

/-- The logs after a log was opened. -/
theorem hasLog_opened {s : Site} {h : Holder} {fault : Option OpenFault} {seq : UInt64}
    (hlog : (if fault = some .refused then s.loc else s.loc.put (s.loc.logName h.activeSeq)).HasLog seq) :
    s.loc.HasLog seq ∨ fault ≠ some .refused ∧ seq = h.activeSeq := by
  split_ifs at hlog with hfault
  · exact .inl hlog
  · rcases (s.loc.hasLog_put_log _ seq).mp hlog with hlog | heq
    · exact .inl hlog
    · exact .inr ⟨hfault, heq⟩

theorem openWriter_ahead {s s' : Site} {i : Nat} {fault : Option OpenFault} (hs : s.Ahead)
    (hok : s.Unshared (.openWriter i fault)) (h : s.step (.openWriter i fault) = some s') : s'.Ahead := by
  unfold step at h
  dsimp only at h
  split at h
  · simp at h
  · rename_i old hold
    by_cases hserving : old.phase = .serving
    · simp [hserving] at h
    rw [if_neg hserving] at h
    simp only [Option.some.injEq] at h
    subst h
    apply set_ahead (if fault = some .refused then s.loc else s.loc.put (s.loc.logName old.activeSeq))
    · intro j other hji hj seq hlog
      rcases hasLog_opened hlog with hlog | ⟨hmade, rfl⟩
      · exact hs j other hj seq hlog
      · rcases hok with hrefused | hpast
        · exact absurd hrefused hmade
        · exact hpast old hold j other hji hj
    · intro new hnew seq hlog
      have hnext : old.next = old.activeSeq.toNat := by
        unfold Holder.next
        cases hphase : old.phase with
        | serving => exact absurd hphase hserving
        | starting => rfl
        | committing => rfl
      have hle : seq.toNat ≤ old.activeSeq.toNat := by
        rcases hasLog_opened hlog with hlog | ⟨-, rfl⟩
        · exact hnext ▸ (hs i old hold seq hlog).le
        · exact le_refl _
      unfold opened at hnew
      split_ifs at hnew
      simp only [Option.some.injEq] at hnew
      subst hnew
      unfold Holder.next
      dsimp only
      omega

/-- One step of the servers keeps all of them ahead. -/
theorem step_ahead {s s' : Site} {a : Action} (hs : s.Ahead) (hok : s.Unshared a) (h : s.step a = some s') :
    s'.Ahead := by
  cases a with
  | list i page => exact list_ahead hs hok h
  | openWriter i fault => exact openWriter_ahead hs hok h
  | advanceSeq i => exact advanceSeq_ahead hs hok h
  | mark i marker seq =>
    unfold step at h
    dsimp only at h
    split at h
    · simp at h
    · simp only [Option.some.injEq] at h
      subst h
      intro j held hj other hlog
      rcases (s.loc.hasLog_put _ other).mp hlog with hlog | hname
      · exact hs j held hj other hlog
      · cases marker with
        | done => exact absurd hname (s.loc.objectName_ne_logName other seq (by decide) (by decide))
        | pack => exact absurd hname (s.loc.objectName_ne_logName other seq (by decide) (by decide))
        | idx => exact absurd hname (s.loc.objectName_ne_logName other seq (by decide) (by decide))
  | stop i =>
    unfold step at h
    simp only [Option.some.injEq] at h
    subst h
    apply set_ahead s.loc (fun j h _ => hs j h)
    rintro _ ⟨⟩

theorem opens_fresh {s : Site} (hs : s.Ahead) {a : Action} {seq : UInt64} (h : s.opens a = some seq) :
    ¬ s.loc.HasLog seq := by
  intro hlog
  unfold opens at h
  cases a with
  | openWriter i fault =>
    simp only [Option.bind_eq_some_iff] at h
    obtain ⟨held, hheld, h⟩ := h
    split_ifs at h with hserving
    simp only [Option.some.injEq] at h
    subst h
    have hlt := hs i held hheld _ hlog
    unfold Holder.next at hlt
    split at hlt
    · rename_i hphase
      exact hserving hphase
    · omega
  | _ => simp at h

/-! ## Nothing less is enough -/

/-- A server that starts or commits and is not past all logs comes to one of them, commit after commit. -/
theorem pending_reopens (seq : UInt64) (i : Nat) (n : Nat) {s : Site} {h : Holder} (hi : s.servers i = some h)
    (hphase : h.phase ≠ .serving) (hlog : s.loc.HasLog seq) (hn : seq.toNat = h.activeSeq.toNat + n) :
    ∃ as t q, Run.run step s as = some t ∧ t.opens (.openWriter i none) = some q ∧ t.loc.HasLog q := by
  induction n generalizing s h with
  | zero =>
    have hq : h.activeSeq = seq := UInt64.toNat_inj.mp (by omega)
    refine ⟨[], s, seq, rfl, ?_, hlog⟩
    unfold opens
    simp only [hi, Option.bind_some, if_neg hphase, hq]
  | succ n ih =>
    let open1 : Site := { s.set i (some { h with phase := .serving }) with
      loc := s.loc.put (s.loc.logName h.activeSeq) }
    have hopen : s.step (.openWriter i none) = some open1 := by
      unfold step
      simp [hi, hphase, opened, open1]
    let next1 : Site := open1.set i (some ⟨h.activeSeq + 1, .committing⟩)
    have hself : open1.servers i = some { h with phase := .serving } := Function.update_self ..
    have hnext : open1.step (.advanceSeq i) = some next1 := by
      unfold step
      simp [hself, next1]
    have hone : (1 : UInt64).toNat = 1 := rfl
    have hlt := seq.toNat_lt
    obtain ⟨as, t, q, hrun, hq⟩ := ih (s := next1) (h := ⟨h.activeSeq + 1, .committing⟩)
      (Function.update_self ..) (by simp) ((s.loc.hasLog_put_log _ seq).mpr (.inl hlog))
      (by simp only [UInt64.toNat_add, hone]; omega)
    refine ⟨.openWriter i none :: .advanceSeq i :: as, t, q, ?_, hq⟩
    exact Run.run_cons.mpr ⟨_, hopen, Run.run_cons.mpr ⟨_, hnext, hrun⟩⟩

/-- Where a server is not ahead, it can go on to open a log that is there. -/
theorem behind_reopens {s : Site} (hs : ¬ s.Ahead) :
    ∃ i as t q, Run.run step s as = some t ∧ t.opens (.openWriter i none) = some q ∧ t.loc.HasLog q := by
  unfold Ahead at hs
  simp only [not_forall, not_lt, exists_prop] at hs
  obtain ⟨i, h, hi, seq, hlog, hle⟩ := hs
  refine ⟨i, ?_⟩
  unfold Holder.next at hle
  split at hle
  · rename_i hphase
    have hnext : s.step (.advanceSeq i) = some (s.set i (some ⟨h.activeSeq + 1, .committing⟩)) := by
      unfold step
      simp [hi, hphase]
    have hone : (1 : UInt64).toNat = 1 := rfl
    have hlt := seq.toNat_lt
    obtain ⟨as, t, q, hrun, hq⟩ := pending_reopens seq i (seq.toNat - (h.activeSeq.toNat + 1))
      (s := s.set i (some ⟨h.activeSeq + 1, .committing⟩)) (h := ⟨h.activeSeq + 1, .committing⟩)
      (Function.update_self ..) (by simp) hlog (by simp only [UInt64.toNat_add, hone]; omega)
    exact ⟨.advanceSeq i :: as, t, q, Run.run_cons.mpr ⟨_, hnext, hrun⟩, hq⟩
  · rename_i hphase
    exact pending_reopens seq i (seq.toNat - h.activeSeq.toNat) hi (fun h' => hphase h') hlog (by omega)

/-- After a log was opened that another server has still before it, some server can open a log again. -/
theorem shared_reopens {s s' : Site} {i : Nat} {fault : Option OpenFault}
    (h : s.step (.openWriter i fault) = some s') (hshared : ¬ s.Unshared (.openWriter i fault)) :
    ∃ j as t q, Run.run step s' as = some t ∧ t.opens (.openWriter j none) = some q ∧ t.loc.HasLog q := by
  unfold Unshared at hshared
  simp only [not_or, not_forall, not_lt] at hshared
  obtain ⟨hmade, held, hheld, j, other, hji, hj, hle⟩ := hshared
  apply behind_reopens
  intro hahead
  unfold step at h
  simp only [hheld] at h
  by_cases hserving : held.phase = .serving
  · simp [hserving] at h
  rw [if_neg hserving, if_neg hmade, Option.some.injEq] at h
  subst h
  have hlt := hahead j other (by simp only [set, Function.update_of_ne hji, hj]) held.activeSeq
    ((s.loc.hasLog_put_log _ _).mpr (.inr rfl))
  omega

/-- In a run whose steps are all unshared, `open_writer` is never called with the sequence of a log that is
there. -/
theorem sequences_owned_once (loc : WalLocation) (as : List Action)
    (hmeets : Run.Meets step Unshared (initial loc) as) :
    ∀ done a rest s, as = done ++ a :: rest → Run.run step (initial loc) done = some s →
      ∀ seq, s.opens a = some seq → ¬ s.loc.HasLog seq := by
  rintro done a rest s rfl hrun seq hopens
  have hinit : (initial loc).Ahead := by
    intro i h hi
    exact absurd hi (by simp [initial])
  have hahead : s.Ahead := Run.invariant (fun _ _ _ => step_ahead) (Run.meets_take hmeets) hrun hinit
  exact opens_fresh hahead hopens

/-- A listing that leaves nothing out is enough for a start. -/
theorem list_unshared (s : Site) (i page : Nat) (hwhole : s.loc.kind = .gcs → s.loc.names.length ≤ page)
    (hmax : ∀ last ∈ s.loc.listLogSequences page, last.toNat + 1 < 2 ^ 64) :
    s.Unshared (.list i page) := by
  refine ⟨?_, ?_⟩
  · intro seq hlog
    exact ⟨seq, s.loc.listed_whole page hwhole hlog, UInt64.le_refl seq⟩
  · intro last hlast
    exact hmax last ((s.loc.mem_listLogSequences page last).mpr hlast)

/-- A server that is alone opens its log unshared. -/
theorem openWriter_unshared (s : Site) (i : Nat) (fault : Option OpenFault)
    (hlone : ∀ j, j ≠ i → s.servers j = none) : s.Unshared (.openWriter i fault) := by
  right
  intro h _ j other hji hj
  rw [hlone j hji] at hj
  simp at hj

theorem sequences_owned_once_restart :
    ∃ s, Run.run step (initial ⟨.localFs, [], ["7.done".toList, "7.log".toList]⟩)
        [.list 0 0, .openWriter 0 none, .mark 0 .done 8, .advanceSeq 0] = some s ∧
      s.opens (.openWriter 0 none) = some 9 ∧ ¬ s.loc.HasLog 9 := by
  refine ⟨_, rfl, ?_, ?_⟩
  · decide +kernel
  refine sequences_owned_once ⟨.localFs, [], ["7.done".toList, "7.log".toList]⟩
    [.list 0 0, .openWriter 0 none, .mark 0 .done 8, .advanceSeq 0, .openWriter 0 none] ?_
    [.list 0 0, .openWriter 0 none, .mark 0 .done 8, .advanceSeq 0] (.openWriter 0 none) [] _ rfl rfl 9 ?_
  · refine ⟨list_unshared _ 0 0 (by simp [initial]) ?_, ?_⟩
    · intro last hlast
      have hlist : (WalLocation.mk .localFs [] ["7.done".toList, "7.log".toList]).listLogSequences 0 = [7] := by
        decide +kernel
      unfold initial at hlast
      rw [hlist, List.mem_singleton] at hlast
      subst hlast
      decide
    rintro _ ⟨⟩
    refine ⟨openWriter_unshared _ 0 none fun j hj => Function.update_of_ne hj _ _, ?_⟩
    rintro _ ⟨⟩
    refine ⟨trivial, ?_⟩
    rintro _ ⟨⟩
    refine ⟨?_, ?_⟩
    · rintro h ⟨⟩
      decide +kernel
    rintro _ ⟨⟩
    refine ⟨openWriter_unshared _ 0 none ?_, fun _ _ => trivial⟩
    intro j hj
    simp only [set, Function.update_of_ne hj, initial]
  · decide +kernel

/-- Two servers that run at once, and a listing that ends before the last log. -/
theorem sequence_reused :
    (∃ s, Run.run step (initial ⟨.localFs, [], []⟩)
        [.list 0 0, .openWriter 0 none, .list 1 0, .openWriter 1 none, .advanceSeq 0] = some s ∧
      s.opens (.openWriter 0 none) = some 1 ∧ s.loc.HasLog 1) ∧
    (∃ s, Run.run step (initial ⟨.gcs, "wal/".toList,
          ["wal/0.done".toList, "wal/0.log".toList, "wal/1.log".toList]⟩) [.list 0 2] = some s ∧
      s.opens (.openWriter 0 none) = some 1 ∧ s.loc.HasLog 1) := by
  refine ⟨⟨_, rfl, ?_, ?_⟩, ⟨_, rfl, ?_, ?_⟩⟩
  · decide +kernel
  · decide +kernel
  · decide +kernel
  · decide +kernel

end Site

end Allocation

end GitNfs
