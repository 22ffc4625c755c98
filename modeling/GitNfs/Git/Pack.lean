import GitNfs.Lib.Groups
import GitNfs.Lib.Reading
import GitNfs.Git.PackWriter

/-! # Reading a pack

`inflate` is the decompressor of `flate2`: what it makes of the stream that some bytes start with, and how
many of the bytes it took.
-/

namespace GitNfs

open Reading

/-- Why a call fails. It returns an error, but for `capacityOverflow`, which is a panic. -/
inductive PackError where
  | tooShort
  | invalidMagic (magic : Bytes)
  | unsupportedVersion (version : Nat)
  | eofObject
  | unknownType (n : Nat)
  | eofSize
  | eofOffset
  | eofOffsetContinuation
  | negativeBase
  | eofSha
  | inflate
  | eofVarint
  | eofVarintContinuation
  | deltaTruncated
  | copyRange (off size baseLen : Nat)
  | insertRange
  | opcodeZero
  | resultSize (got expected : Nat)
  | missingBases (n : Nat)
  | capacityOverflow (n : Nat)
  deriving DecidableEq, Repr

structure GitRawObject where
  objType : ObjectType
  data : Bytes
  deriving DecidableEq, Repr

def ObjectType.fromU8 : Nat → Except PackError ObjectType
  | 1 => .ok .commit
  | 2 => .ok .tree
  | 3 => .ok .blob
  | 4 => .ok .tag
  | 6 => .ok .ofsDelta
  | 7 => .ok .refDelta
  | other => .error (.unknownType other)

/-- A `usize`, of 64 bits. -/
def usize (n : Nat) : Nat := n % 2 ^ 64

/-! ## Numbers -/

/-- Seven more bits from each byte, as long as the high bit of the one before is set. A word is shifted
by less than its width. -/
def varintTail (eof : PackError) : Nat → Nat → Bytes → Except PackError (Nat × Bytes)
  | _, _, [] => .error eof
  | val, shift, c :: rest =>
    let val := val ||| usize ((c.toNat % 128) <<< (shift % 64))
    if c.toNat < 128 then .ok (val, rest) else varintTail eof val (shift + 7) rest

def decodeVarint : Bytes → Except PackError (Nat × Bytes)
  | [] => .error .eofVarint
  | c :: rest =>
    if c.toNat < 128 then .ok (c.toNat % 128, rest)
    else varintTail .eofVarintContinuation (c.toNat % 128) 7 rest

def offsetTail : Nat → Bytes → Except PackError (Nat × Bytes)
  | _, [] => .error .eofOffsetContinuation
  | val, c :: rest =>
    let val := usize ((val + 1) <<< 7) ||| c.toNat % 128
    if c.toNat < 128 then .ok (val, rest) else offsetTail val rest

/-- How far before a delta its base is. -/
def decodeOffset : Bytes → Except PackError (Nat × Bytes)
  | [] => .error .eofOffset
  | c :: rest => if c.toNat < 128 then .ok (c.toNat % 128, rest) else offsetTail (c.toNat % 128) rest

/-! ## Deltas -/

/-- An argument of a copy: a byte for each of its bits in the opcode that is set. -/
def copyArg (op : UInt8) : List (Nat × Nat) → Bytes → Except PackError (Nat × Bytes)
  | [], delta => .ok (0, delta)
  | (bit, shift) :: more, delta =>
    if op.toNat.testBit bit then
      match delta with
      | [] => .error .deltaTruncated
      | c :: delta =>
        match copyArg op more delta with
        | .error e => .error e
        | .ok (arg, delta) => .ok (c.toNat <<< shift ||| arg, delta)
    else copyArg op more delta

def applyCopy (base : Bytes) (op : UInt8) (delta : Bytes) : Except PackError (Bytes × Bytes) :=
  match copyArg op [(0, 0), (1, 8), (2, 16), (3, 24)] delta with
  | .error e => .error e
  | .ok (off, delta) =>
    match copyArg op [(4, 0), (5, 8), (6, 16)] delta with
    | .error e => .error e
    | .ok (size, delta) =>
      let size := if size = 0 then 0x10000 else size
      if base.length < off + size then .error (.copyRange off size base.length)
      else .ok ((base.drop off).take size, delta)

def applyInsert (op : UInt8) (delta : Bytes) : Except PackError (Bytes × Bytes) :=
  if delta.length < op.toNat then .error .insertRange
  else .ok (delta.take op.toNat, delta.drop op.toNat)

/-- What one opcode adds, and the rest of the delta. -/
def applyOp (base : Bytes) (op : UInt8) (delta : Bytes) : Except PackError (Bytes × Bytes) :=
  if 128 ≤ op.toNat then applyCopy base op delta
  else if 0 < op.toNat then applyInsert op delta
  else .error .opcodeZero

/-- An opcode takes its own byte at least, so there are no more of them than the delta is long. -/
def applyOps (base : Bytes) : Nat → Bytes → Bytes → Except PackError Bytes
  | _, [], out => .ok out
  | 0, _ :: _, out => .ok out
  | fuel + 1, op :: delta, out =>
    match applyOp base op delta with
    | .error e => .error e
    | .ok (added, delta) => applyOps base fuel delta (out ++ added)

/-- `isize::MAX`, the largest capacity of a vector of bytes. -/
def maxCapacity : Nat := 2 ^ 63 - 1

/-- The length of the base that the delta names is read and not compared. -/
def applyGitDelta (base delta : Bytes) : Except PackError Bytes :=
  match decodeVarint delta with
  | .error e => .error e
  | .ok (_, delta) =>
    match decodeVarint delta with
    | .error e => .error e
    | .ok (resLen, delta) =>
      if maxCapacity < resLen then .error (.capacityOverflow resLen)
      else
        match applyOps base delta.length delta [] with
        | .error e => .error e
        | .ok out => if out.length = resLen then .ok out else .error (.resultSize out.length resLen)

example : applyGitDelta (asBytes "The quick brown fox jumps over the lazy dog".toList)
    ([43, 42, 0x90, 20, 10] ++ asBytes "runs past ".toList ++ [0x91, 31, 12]) =
    .ok (asBytes "The quick brown fox runs past the lazy dog".toList) := by decide +kernel

/-! ## Records -/

inductive DeltaBase where
  | offset (base : Nat)
  | sha (base : Str)
  deriving DecidableEq, Repr

inductive Source where
  | object (t : ObjectType)
  | delta (base : DeltaBase)
  deriving DecidableEq, Repr

/-- What a pack holds at one of its offsets. -/
structure Record where
  source : Source
  size : Nat
  data : Bytes
  deriving DecidableEq, Repr

def readObjectHeader : Bytes → Except PackError ((ObjectType × Nat) × Bytes)
  | [] => .error .eofObject
  | c :: rest =>
    match ObjectType.fromU8 (c.toNat / 16 % 8) with
    | .error e => .error e
    | .ok t =>
      if c.toNat < 128 then .ok ((t, c.toNat % 16), rest)
      else
        match varintTail .eofSize (c.toNat % 16) 4 rest with
        | .error e => .error e
        | .ok (size, rest) => .ok ((t, size), rest)

def readSource (objOffset : Nat) : ObjectType → Bytes → Except PackError (Source × Bytes)
  | .ofsDelta, s =>
    match decodeOffset s with
    | .error e => .error e
    | .ok (back, s) =>
      if objOffset < back then .error .negativeBase else .ok (.delta (.offset (objOffset - back)), s)
  | .refDelta, s =>
    if s.length < 20 then .error .eofSha else .ok (.delta (.sha (hexEncode (s.take 20))), s.drop 20)
  | t, s => .ok (.object t, s)

/-- The record at `objOffset`, where `s` starts, and how many bytes it takes. -/
def readRecord (inflate : Bytes → Option (Bytes × Nat)) (objOffset : Nat) (s : Bytes) :
    Except PackError (Record × Nat) :=
  match readObjectHeader s with
  | .error e => .error e
  | .ok ((t, size), rest) =>
    match readSource objOffset t rest with
    | .error e => .error e
    | .ok (source, stream) =>
      match inflate stream with
      | none => .error .inflate
      | some (data, consumed) => .ok (⟨source, size, data⟩, s.length - stream.length + consumed)

/-! ## The whole pack -/

structure PendingDelta where
  objOffset : Nat
  base : DeltaBase
  deltaData : Bytes
  deriving DecidableEq, Repr

structure Unpacked where
  byOffset : Nat → Option GitRawObject
  bySha : Str → Option GitRawObject
  pending : List PendingDelta

namespace Unpacked

def empty : Unpacked := ⟨fun _ => none, fun _ => none, []⟩

def insert (u : Unpacked) (offset : Nat) (obj : GitRawObject) : Unpacked :=
  { u with byOffset := Function.update u.byOffset offset (some obj)
           bySha := Function.update u.bySha (computeGitSha1 obj.objType obj.data) (some obj) }

def push (u : Unpacked) (item : PendingDelta) : Unpacked := { u with pending := u.pending ++ [item] }

def add (u : Unpacked) (offset : Nat) (r : Record) : Unpacked :=
  match r.source with
  | .object t => u.insert offset ⟨t, r.data⟩
  | .delta base => u.push ⟨offset, base, r.data⟩

def baseInfo (u : Unpacked) : DeltaBase → Option GitRawObject
  | .offset base => u.byOffset base
  | .sha base => u.bySha base

end Unpacked

def unpackObjects (inflate : Bytes → Option (Bytes × Nat)) (pack : Bytes) :
    Nat → Nat → Unpacked → Except PackError Unpacked
  | 0, _, u => .ok u
  | n + 1, pos, u =>
    match readRecord inflate pos (pack.drop pos) with
    | .error e => .error e
    | .ok (record, used) => unpackObjects inflate pack n (pos + used) (u.add pos record)

/-- One round over the deltas. Those whose base is not there yet stay pending. -/
def resolveRound : List PendingDelta → Unpacked → Except PackError Unpacked
  | [], u => .ok u
  | item :: items, u =>
    match u.baseInfo item.base with
    | none => resolveRound items (u.push item)
    | some base =>
      match applyGitDelta base.data item.deltaData with
      | .error e => .error e
      | .ok resolved => resolveRound items (u.insert item.objOffset ⟨base.objType, resolved⟩)

/-- Round after round. Each resolves a delta or is the last, so `fuel` is how many there are. -/
def resolveDeltas : Nat → Unpacked → Except PackError Unpacked
  | 0, u => .ok u
  | fuel + 1, u =>
    if u.pending = [] then .ok u
    else
      match resolveRound u.pending { u with pending := [] } with
      | .error e => .error e
      | .ok next =>
        if next.pending.length = u.pending.length then .error (.missingBases next.pending.length)
        else resolveDeltas fuel next

def unpackPackfile (inflate : Bytes → Option (Bytes × Nat)) (pack : Bytes) :
    Except PackError (Str → Option GitRawObject) :=
  if pack.length < 12 then .error .tooShort
  else if pack.take 4 ≠ asBytes "PACK".toList then .error (.invalidMagic (pack.take 4))
  else
    let version := fromBeBytes ((pack.drop 4).take 4)
    if version ≠ 2 ∧ version ≠ 3 then .error (.unsupportedVersion version)
    else
      match unpackObjects inflate pack (fromBeBytes ((pack.drop 8).take 4)) 12 Unpacked.empty with
      | .error e => .error e
      | .ok u =>
        match resolveDeltas u.pending.length u with
        | .error e => .error e
        | .ok u => .ok u.bySha

/-! ## What is read is at the front -/

theorem varintTail_reads (eof : PackError) (val shift : Nat) : Reads (varintTail eof val shift) := by
  intro s
  induction s generalizing val shift with
  | nil => intro a rest h; exact absurd h (by simp [varintTail])
  | cons c s ih =>
    intro a rest h
    rw [varintTail] at h
    split_ifs at h with hlast
    · obtain ⟨rfl, rfl⟩ := Prod.mk.inj (Except.ok.inj h)
      exact ⟨[c], rfl, fun t => by simp only [List.cons_append, List.nil_append, varintTail, if_pos hlast]⟩
    · obtain ⟨front, rfl, hfront⟩ := ih _ _ a rest h
      exact ⟨c :: front, rfl, fun t => by
        rw [List.cons_append, varintTail]
        simp only [if_neg hlast, hfront]⟩

theorem decodeVarint_reads : Reads decodeVarint := by
  refine Reads.cons rfl fun c => ?_
  simp only [decodeVarint]
  split_ifs
  · exact Reads.pure _
  · exact varintTail_reads _ _ _

theorem offsetTail_reads (val : Nat) : Reads (offsetTail val) := by
  intro s
  induction s generalizing val with
  | nil => intro a rest h; exact absurd h (by simp [offsetTail])
  | cons c s ih =>
    intro a rest h
    rw [offsetTail] at h
    split_ifs at h with hlast
    · obtain ⟨rfl, rfl⟩ := Prod.mk.inj (Except.ok.inj h)
      exact ⟨[c], rfl, fun t => by simp only [List.cons_append, List.nil_append, offsetTail, if_pos hlast]⟩
    · obtain ⟨front, rfl, hfront⟩ := ih _ a rest h
      exact ⟨c :: front, rfl, fun t => by
        rw [List.cons_append, offsetTail]
        simp only [if_neg hlast, hfront]⟩

theorem decodeOffset_reads : Reads decodeOffset := by
  refine Reads.cons rfl fun c => ?_
  simp only [decodeOffset]
  split_ifs
  · exact Reads.pure _
  · exact offsetTail_reads _

theorem readObjectHeader_reads : Reads readObjectHeader := by
  refine Reads.cons rfl fun c => ?_
  simp only [readObjectHeader]
  split
  · exact Reads.error _
  · rename_i t ht
    split_ifs
    · exact Reads.pure _
    · refine Reads.andThen (varintTail_reads .eofSize (c.toNat % 16) 4) (fun size => Reads.pure (t, size)) ?_ ?_
      · intro s e hs
        exact ⟨e, by rw [hs]⟩
      · intro s size rest hs
        rw [hs]

theorem readSource_reads (objOffset : Nat) (t : ObjectType) : Reads (readSource objOffset t) := by
  have hplain : Reads fun s : Bytes => (.ok (.object t, s) : Except PackError (Source × Bytes)) := Reads.pure _
  cases t with
  | ofsDelta =>
    refine Reads.andThen (g := fun back rest =>
      if objOffset < back then .error .negativeBase else .ok (.delta (.offset (objOffset - back)), rest))
      decodeOffset_reads (fun back => ?_) (fun s e hs => ⟨e, by rw [readSource, hs]⟩)
      (fun s back rest hs => by rw [readSource, hs])
    split_ifs
    · exact Reads.error _
    · exact Reads.pure _
  | refDelta =>
    intro s a rest h
    simp only [readSource] at h
    split_ifs at h with hshort
    obtain ⟨rfl, rfl⟩ := Prod.mk.inj (Except.ok.inj h)
    refine ⟨s.take 20, (List.take_append_drop 20 s).symm, fun t => ?_⟩
    have hlen : (s.take 20).length = 20 := by
      rw [List.length_take]
      omega
    rw [readSource, if_neg (by rw [List.length_append]; omega), List.take_left' hlen, List.drop_left' hlen]
  | _ => exact hplain

/-! ## What was written is read back -/

theorem ObjectType.fromU8_toU8 (t : ObjectType) : ObjectType.fromU8 t.toU8.toNat = .ok t := by
  cases t <;> rfl

theorem ObjectType.toU8_lt (t : ObjectType) : t.toU8.toNat < 8 := by
  cases t <;> decide

/-- The low bits and the high bits of a word share none. -/
theorem sizeBytes_succ (fuel : Nat) {size : Nat} (h : size ≠ 0) :
    sizeBytes (fuel + 1) size =
      UInt8.ofNat (size % 128 + if size / 128 = 0 then 0 else 128) :: sizeBytes fuel (size / 128) := by
  rw [sizeBytes, if_neg h]

/-- The bytes of a size are read to their end, and as that size if a word holds it. -/
theorem varintTail_sizeBytes (eof : PackError) (rest : Bytes) (fuel size val shift : Nat)
    (hsize : size ≠ 0) (hfuel : size ≤ fuel) :
    ∃ v, varintTail eof val shift (sizeBytes fuel size ++ rest) = .ok (v, rest) ∧
      (val < 2 ^ shift → val + size * 2 ^ shift < 2 ^ 64 → v = val + size * 2 ^ shift) := by
  induction fuel generalizing size val shift with
  | zero => omega
  | succ fuel ih =>
    rw [sizeBytes_succ fuel hsize, List.cons_append, varintTail]
    have hbyte : (UInt8.ofNat (size % 128 + if size / 128 = 0 then 0 else 128)).toNat =
        size % 128 + if size / 128 = 0 then 0 else 128 := by
      rw [UInt8.toNat_ofNat']
      split <;> omega
    have hlow : (size % 128 + if size / 128 = 0 then 0 else 128) % 128 = size % 128 := by
      split <;> omega
    -- the seven bits of this byte, above those that are there
    have hval : val < 2 ^ shift → val + size * 2 ^ shift < 2 ^ 64 →
        val ||| usize ((size % 128) <<< (shift % 64)) = val + size % 128 * 2 ^ shift := by
      intro hv hword
      have hshift : shift < 64 := by
        by_contra hge
        have hpow : 2 ^ 64 ≤ 2 ^ shift := Nat.pow_le_pow_right (by decide) (Nat.not_lt.mp hge)
        have : 1 * 2 ^ shift ≤ size * 2 ^ shift := Nat.mul_le_mul_right _ (by omega)
        omega
      have hle : size % 128 * 2 ^ shift ≤ size * 2 ^ shift := Nat.mul_le_mul_right _ (Nat.mod_le _ _)
      have hmod : usize ((size % 128) <<< shift) = (size % 128) <<< shift := by
        rw [usize, Nat.shiftLeft_eq, Nat.mod_eq_of_lt (by omega)]
      rw [Nat.mod_eq_of_lt hshift, hmod, Groups.or_shift hv, Nat.shiftLeft_eq]
    simp only [hbyte, hlow]
    by_cases hmore : size / 128 = 0
    · rw [if_pos (by rw [if_pos hmore]; omega)]
      refine ⟨_, by rw [hmore]; cases fuel <;> rfl, fun hv hword => ?_⟩
      rw [hval hv hword, Nat.mod_eq_of_lt (by omega)]
    · rw [if_neg (by rw [if_neg hmore]; omega)]
      obtain ⟨v, hread, hv'⟩ := ih (size / 128) (val ||| usize ((size % 128) <<< (shift % 64))) (shift + 7)
        hmore (by omega)
      refine ⟨v, hread, fun hv hword => ?_⟩
      have hsplit : size % 128 * 2 ^ shift + size / 128 * 2 ^ (shift + 7) = size * 2 ^ shift := by
        rw [Nat.pow_add, Nat.mul_comm (2 ^ shift), ← Nat.mul_assoc, ← Nat.add_mul]
        congr 1
        omega
      rw [hval hv hword] at hv'
      have hlt : val + size % 128 * 2 ^ shift < 2 ^ (shift + 7) := by
        have hseven : (size % 128 + 1) * 2 ^ shift ≤ 2 ^ 7 * 2 ^ shift := Nat.mul_le_mul_right _ (by omega)
        rw [← Nat.pow_add, Nat.add_comm 7, Nat.add_mul] at hseven
        omega
      rw [hv' hlt (by omega)]
      omega

theorem readObjectHeader_pack (t : ObjectType) (size : Nat) (rest : Bytes) :
    ∃ v, readObjectHeader (packObjectHeader t size ++ rest) = .ok ((t, v), rest) ∧
      (size < 2 ^ 64 → v = size) := by
  have ht := t.toU8_lt
  have hbyte : (UInt8.ofNat (t.toU8.toNat * 16 + size % 16 + if size / 16 = 0 then 0 else 128)).toNat =
      t.toU8.toNat * 16 + size % 16 + if size / 16 = 0 then 0 else 128 := by
    rw [UInt8.toNat_ofNat']
    split <;> omega
  have htype : (t.toU8.toNat * 16 + size % 16 + if size / 16 = 0 then 0 else 128) / 16 % 8 = t.toU8.toNat := by
    split <;> omega
  have hlow : (t.toU8.toNat * 16 + size % 16 + if size / 16 = 0 then 0 else 128) % 16 = size % 16 := by
    split <;> omega
  simp only [packObjectHeader, List.cons_append, readObjectHeader, hbyte, htype, hlow,
    ObjectType.fromU8_toU8]
  by_cases hmore : size / 16 = 0
  · rw [if_pos (by rw [if_pos hmore]; omega)]
    refine ⟨_, by rw [hmore]; rfl, fun _ => ?_⟩
    omega
  · rw [if_neg (by rw [if_neg hmore]; omega)]
    obtain ⟨v, hread, hv⟩ := varintTail_sizeBytes .eofSize rest (size / 16) (size / 16) (size % 16) 4
      hmore (Nat.le_refl _)
    rw [hread]
    refine ⟨v, rfl, fun hword => ?_⟩
    rw [hv (by omega) (by omega)]
    omega

/-- A plain object is one that is not stored as a delta. -/
def ObjectType.Plain (t : ObjectType) : Prop := t = .commit ∨ t = .tree ∨ t = .blob ∨ t = .tag

theorem readSource_plain {t : ObjectType} (h : t.Plain) (objOffset : Nat) (s : Bytes) :
    readSource objOffset t s = .ok (.object t, s) := by
  rcases h with rfl | rfl | rfl | rfl <;> rfl

/-- An object is read off a pack as its payload, up to where the next one starts. -/
theorem readRecord_pack (zlib : Bytes → Bytes) (inflate : Bytes → Option (Bytes × Nat))
    (obj : GitObjectToPack) (hplain : obj.objType.Plain)
    (hzlib : ∀ rest, inflate (zlib obj.data ++ rest) = some (obj.data, (zlib obj.data).length))
    (objOffset : Nat) (rest : Bytes) :
    ∃ size, readRecord inflate objOffset (packRecord zlib obj ++ rest) =
        .ok (⟨.object obj.objType, size, obj.data⟩, (packRecord zlib obj).length) ∧
      (obj.data.length < 2 ^ 64 → size = obj.data.length) := by
  obtain ⟨size, hread, hsize⟩ := readObjectHeader_pack obj.objType obj.data.length (zlib obj.data ++ rest)
  refine ⟨size, ?_, hsize⟩
  rw [packRecord, List.append_assoc, readRecord, hread]
  simp only [readSource_plain hplain, hzlib, List.length_append]
  congr 2
  omega

namespace Unpacked

@[simp] theorem insert_pending (u : Unpacked) (offset : Nat) (obj : GitRawObject) :
    (u.insert offset obj).pending = u.pending := rfl

@[simp] theorem insert_byOffset (u : Unpacked) (offset : Nat) (obj : GitRawObject) :
    (u.insert offset obj).byOffset = Function.update u.byOffset offset (some obj) := rfl

@[simp] theorem insert_bySha (u : Unpacked) (offset : Nat) (obj : GitRawObject) :
    (u.insert offset obj).bySha =
      Function.update u.bySha (computeGitSha1 obj.objType obj.data) (some obj) := rfl

end Unpacked

def GitObjectToPack.raw (obj : GitObjectToPack) : GitRawObject := ⟨obj.objType, obj.data⟩

/-- The loop over a pack that was written takes the objects off it one by one: none is pending, and
the table holds them by the names of their contents. -/
theorem unpackObjects_pack {zlib : Bytes → Bytes} {inflate : Bytes → Option (Bytes × Nat)}
    (objects : List GitObjectToPack) (before behind : Bytes) (u : Unpacked)
    (hplain : ∀ obj ∈ objects, obj.objType.Plain)
    (hzlib : ∀ obj ∈ objects, ∀ rest,
      inflate (zlib obj.data ++ rest) = some (obj.data, (zlib obj.data).length)) :
    ∃ u', unpackObjects inflate (before ++ objects.flatMap (packRecord zlib) ++ behind) objects.length
        before.length u = .ok u' ∧
      u'.pending = u.pending ∧
      u'.bySha = objects.foldl
        (fun m obj => Function.update m (computeGitSha1 obj.objType obj.data) (some obj.raw)) u.bySha := by
  induction objects generalizing before u with
  | nil => exact ⟨u, rfl, rfl, rfl⟩
  | cons obj objs ih =>
    obtain ⟨size, hread, -⟩ := readRecord_pack zlib inflate obj (hplain obj List.mem_cons_self) (hzlib obj List.mem_cons_self)
      before.length (objs.flatMap (packRecord zlib) ++ behind)
    obtain ⟨u', hrest, hpending, hsha⟩ := ih (before ++ packRecord zlib obj)
      (u.insert before.length obj.raw) (fun o ho => hplain o (List.mem_cons_of_mem _ ho))
      (fun o ho => hzlib o (List.mem_cons_of_mem _ ho))
    have hpack : before ++ (obj :: objs).flatMap (packRecord zlib) ++ behind =
        before ++ (packRecord zlib obj ++ (objs.flatMap (packRecord zlib) ++ behind)) := by
      simp only [List.flatMap_cons, List.append_assoc]
    have hpack' : before ++ packRecord zlib obj ++ objs.flatMap (packRecord zlib) ++ behind =
        before ++ (packRecord zlib obj ++ (objs.flatMap (packRecord zlib) ++ behind)) := by
      simp only [List.append_assoc]
    refine ⟨u', ?_, hpending, hsha⟩
    rw [hpack', List.length_append] at hrest
    rw [hpack, List.length_cons, unpackObjects, List.drop_left, hread]
    exact hrest

/-- With one content to each name, a table that objects are put into holds each of them by its name. -/
theorem foldl_update_iff {α β κ : Type*} [DecidableEq κ] (key : α → κ) (val : α → β) (as : List α)
    (m : κ → Option β) (hone : ∀ a ∈ as, ∀ b ∈ as, key a = key b → val a = val b) (k : κ) (v : β) :
    as.foldl (fun m a => Function.update m (key a) (some (val a))) m k = some v ↔
      (∃ a ∈ as, key a = k ∧ val a = v) ∨ (∀ a ∈ as, key a ≠ k) ∧ m k = some v := by
  induction as generalizing m with
  | nil => simp
  | cons a as ih =>
    rw [List.foldl_cons, ih _ fun x hx y hy =>
      hone x (List.mem_cons_of_mem _ hx) y (List.mem_cons_of_mem _ hy)]
    by_cases hk : key a = k
    · have hupd : Function.update m (key a) (some (val a)) k = some (val a) := by rw [← hk, Function.update_self]
      rw [hupd]
      constructor
      · rintro (⟨b, hb, hbk, hbv⟩ | ⟨-, hv⟩)
        · exact .inl ⟨b, List.mem_cons_of_mem _ hb, hbk, hbv⟩
        · exact .inl ⟨a, List.mem_cons_self, hk, Option.some.inj hv⟩
      · rintro (⟨b, hb, hbk, hbv⟩ | ⟨hnone, -⟩)
        · by_cases hany : ∃ c ∈ as, key c = k
          · obtain ⟨c, hc, hck⟩ := hany
            refine .inl ⟨c, hc, hck, ?_⟩
            rw [← hbv]
            exact hone c (List.mem_cons_of_mem _ hc) b hb (hck.trans hbk.symm)
          · refine .inr ⟨fun c hc hck => hany ⟨c, hc, hck⟩, ?_⟩
            rw [← hbv, hone a List.mem_cons_self b hb (hk.trans hbk.symm)]
        · exact absurd hk (hnone a List.mem_cons_self)
    · rw [Function.update_of_ne (Ne.symm hk)]
      simp only [List.mem_cons, forall_eq_or_imp, exists_eq_or_imp]
      constructor
      · rintro (h | ⟨hnone, hv⟩)
        · exact .inl (.inr h)
        · exact .inr ⟨⟨hk, hnone⟩, hv⟩
      · rintro ((⟨hak, -⟩ | h) | ⟨⟨-, hnone⟩, hv⟩)
        · exact absurd hak hk
        · exact .inl h
        · exact .inr ⟨hnone, hv⟩

theorem packHeader_fields {n : Nat} (hn : n < 2 ^ 32) (rest : Bytes) :
    (packHeader n ++ rest).take 4 = asBytes "PACK".toList ∧
      fromBeBytes (((packHeader n ++ rest).drop 4).take 4) = 2 ∧
      fromBeBytes (((packHeader n ++ rest).drop 8).take 4) = n := by
  have hmagic : (asBytes "PACK".toList).length = 4 := by decide
  have hversion : fromBeBytes (u32ToBeBytes 2) = 2 := by rw [fromBeBytes_u32]; rfl
  have hcount : fromBeBytes (u32ToBeBytes (UInt32.ofNat n)) = n := by
    rw [fromBeBytes_u32, UInt32.toNat_ofNat_of_lt' hn]
  refine ⟨?_, ?_, ?_⟩
  · rw [packHeader, List.append_assoc, List.append_assoc, List.take_left' hmagic]
  · rw [packHeader, List.append_assoc, List.append_assoc, List.drop_left' hmagic,
      List.take_left' (u32ToBeBytes_length _), hversion]
  · rw [packHeader, List.append_assoc, List.drop_left' (by rw [List.length_append, hmagic, u32ToBeBytes_length]),
      List.take_left' (u32ToBeBytes_length _), hcount]

theorem unpackPackfile_pack (zlib : Bytes → Bytes) (inflate : Bytes → Option (Bytes × Nat))
    (objects : List GitObjectToPack) (hlen : objects.length < 2 ^ 32) (sha : Bytes)
    (hplain : ∀ obj ∈ objects, obj.objType.Plain)
    (hzlib : ∀ obj ∈ objects, ∀ rest,
      inflate (zlib obj.data ++ rest) = some (obj.data, (zlib obj.data).length)) :
    unpackPackfile inflate (packHeader objects.length ++ objects.flatMap (packRecord zlib) ++ sha) =
      .ok (objects.foldl
        (fun m obj => Function.update m (computeGitSha1 obj.objType obj.data) (some obj.raw)) fun _ => none) := by
  obtain ⟨u, hunpack, hpending, hsha⟩ := unpackObjects_pack objects (packHeader objects.length) sha
    Unpacked.empty hplain hzlib
  obtain ⟨hmagic, hversion, hcount⟩ := packHeader_fields hlen (objects.flatMap (packRecord zlib) ++ sha)
  rw [packHeader_length] at hunpack
  rw [List.append_assoc] at hunpack ⊢
  unfold unpackPackfile
  rw [if_neg (by rw [List.length_append, packHeader_length]; omega), if_neg (by rw [hmagic]; simp), hversion,
    hcount, hunpack]
  have hnil : u.pending = [] := hpending
  simp only [hnil, List.length_nil, resolveDeltas]
  rw [if_neg (by decide), hsha]
  rfl

/-- A pack that was written is unpacked into exactly the objects it was made of. -/
theorem unpack_pack (zlib : Bytes → Bytes) (inflate : Bytes → Option (Bytes × Nat))
    (objects : List GitObjectToPack) (pack idx : Bytes) (sha : Str)
    (hlen : objects.length < 2 ^ 32)
    (hplain : ∀ obj ∈ objects, obj.objType.Plain)
    (hoid : ∀ obj ∈ objects, obj.oid = computeGitSha1 obj.objType obj.data)
    (hone : ∀ a ∈ objects, ∀ b ∈ objects, a.oid = b.oid → a.raw = b.raw)
    (hzlib : ∀ obj ∈ objects, ∀ rest,
      inflate (zlib obj.data ++ rest) = some (obj.data, (zlib obj.data).length))
    (hpack : createPackAndIndexBytes zlib objects = .ok (pack, idx, sha)) :
    ∃ m, unpackPackfile inflate pack = .ok m ∧
      ∀ oid raw, m oid = some raw ↔ ∃ obj ∈ objects, obj.oid = oid ∧ obj.raw = raw := by
  obtain ⟨entries, shaBytes, hdata, -, -⟩ := createPackAndIndexBytes_ok hpack
  rw [(createPackData_bytes hdata).1, unpackPackfile_pack zlib inflate objects hlen shaBytes hplain hzlib]
  refine ⟨_, rfl, fun oid raw => ?_⟩
  rw [foldl_update_iff _ _ _ _ fun a ha b hb hab =>
    hone a ha b hb (by rw [hoid a ha, hoid b hb]; exact hab)]
  constructor
  · rintro (⟨obj, hobj, hkey, hraw⟩ | ⟨-, hnone⟩)
    · exact ⟨obj, hobj, (hoid obj hobj).trans hkey, hraw⟩
    · exact absurd hnone (by simp)
  · rintro ⟨obj, hobj, hkey, hraw⟩
    exact .inl ⟨obj, hobj, (hoid obj hobj).symm.trans hkey, hraw⟩

/-- Two blobs, one of them empty, and the tree that names nothing. -/
def sampleObjects : List GitObjectToPack :=
  [⟨computeGitSha1 .blob [], .blob, []⟩, ⟨computeGitSha1 .tree [], .tree, []⟩,
    ⟨computeGitSha1 .blob (asBytes "sixteen bytes ..".toList), .blob, asBytes "sixteen bytes ..".toList⟩]

theorem unpack_pack_sample : ∃ pack idx sha m,
    createPackAndIndexBytes zlibStored sampleObjects = .ok (pack, idx, sha) ∧
      unpackPackfile inflateStored pack = .ok m ∧
      ∀ oid raw, m oid = some raw ↔ ∃ obj ∈ sampleObjects, obj.oid = oid ∧ obj.raw = raw := by
  have hsmall : ∀ obj ∈ sampleObjects, obj.data.length < 2 ^ 16 := by decide +kernel
  have hpack : (createPackAndIndexBytes zlibStored sampleObjects).toOption.isSome = true := by decide +kernel
  cases hcreate : createPackAndIndexBytes zlibStored sampleObjects with
  | error e =>
    rw [hcreate] at hpack
    exact absurd hpack (by simp [Except.toOption])
  | ok made =>
    obtain ⟨m, hunpack, hm⟩ := unpack_pack zlibStored inflateStored sampleObjects made.1 made.2.1 made.2.2
      (by decide) (by unfold ObjectType.Plain; decide +kernel) (by decide +kernel) (by decide +kernel)
      (fun obj hobj rest => inflateStored_zlibStored _ _ (hsmall obj hobj)) hcreate
    exact ⟨made.1, made.2.1, made.2.2, m, rfl, hunpack, hm⟩
end GitNfs
