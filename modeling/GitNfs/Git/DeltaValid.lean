import GitNfs.Git.Delta
import GitNfs.Git.Varint

/-! # What a delta is

A delta is two numbers, the lengths of its base and of its result, and then instructions that copy from the
base or insert.
-/

namespace GitNfs

open Groups Reading

/-! ## Sizes -/

/-- The bytes of a number, lowest group first. All but the last continue. -/
inductive Varint : Bytes → Nat → Prop
  | last {c : UInt8} (hc : c.toNat < 128) : Varint [c] c.toNat
  | more {c : UInt8} {s : Bytes} {n : Nat} (hc : 128 ≤ c.toNat) (hs : Varint s n) :
      Varint (c :: s) (c.toNat % 128 + 2 ^ 7 * n)

theorem Varint.unique {s s' t t' : Bytes} {n n' : Nat} (h : Varint s n) (h' : Varint s' n')
    (heq : s ++ t = s' ++ t') : s = s' ∧ n = n' ∧ t = t' := by
  induction h generalizing s' n' with
  | last hc =>
    cases h' with
    | last hc' =>
      obtain ⟨rfl, rfl⟩ := List.cons.inj heq
      exact ⟨rfl, rfl, rfl⟩
    | more hc' _ =>
      obtain ⟨rfl, -⟩ := List.cons.inj heq
      omega
  | more hc _ ih =>
    cases h' with
    | last hc' =>
      obtain ⟨rfl, -⟩ := List.cons.inj heq
      omega
    | more hc' hs' =>
      obtain ⟨rfl, hrest⟩ := List.cons.inj heq
      obtain ⟨rfl, rfl, rfl⟩ := ih hs' hrest
      exact ⟨rfl, rfl, rfl⟩

theorem Varint.littleEndian {s : Bytes} {n : Nat} (h : Varint s n) : littleEndian 7 (varintGroups s) = n := by
  induction h with
  | last hc =>
    rw [varintGroups, if_pos hc, Nat.mod_eq_of_lt hc]
    rfl
  | more hc _ ih =>
    rw [varintGroups, if_neg (by omega), Groups.littleEndian, ih]

theorem Varint.value {s : Bytes} {n : Nat} (h : Varint s n) : (varintLoop s).value = n := by
  have hall := h.littleEndian
  cases s with
  | nil => cases h
  | cons c s =>
    rw [varintGroups, Groups.littleEndian] at hall
    rw [varintLoop, VarintLoop.value, tailGroups, Nat.shiftLeft_eq, Nat.mul_comm]
    exact hall

theorem varintTail_varint {eof : PackError} {s rest : Bytes} {val shift w : Nat}
    (h : varintTail eof val shift s = .ok (w, rest)) : ∃ front n, s = front ++ rest ∧ Varint front n := by
  induction s generalizing val shift with
  | nil => simp [varintTail] at h
  | cons c s ih =>
    rw [varintTail] at h
    split_ifs at h with hlast
    · obtain ⟨-, rfl⟩ := Prod.mk.inj (Except.ok.inj h)
      exact ⟨[c], _, rfl, .last hlast⟩
    · obtain ⟨front, n, rfl, hfront⟩ := ih h
      exact ⟨c :: front, _, rfl, .more (by omega) hfront⟩

theorem Varint.tail {eof : PackError} {s : Bytes} {n : Nat} (h : Varint s n) (val shift : Nat) (t : Bytes) :
    ∃ w, varintTail eof val shift (s ++ t) = .ok (w, t) := by
  induction h generalizing val shift with
  | last hc =>
    rw [List.singleton_append, varintTail]
    simp only [hc, if_true]
    exact ⟨_, rfl⟩
  | more hc _ ih =>
    rw [List.cons_append, varintTail]
    simp only [Nat.not_lt.mpr hc, if_false]
    exact ih _ _

/-- A word is read from the front of a list exactly if a number stands there. -/
theorem decodeVarint_iff {s rest : Bytes} {w : Nat} :
    decodeVarint s = .ok (w, rest) ↔
      ∃ front n, s = front ++ rest ∧ Varint front n ∧ decodeVarint front = .ok (w, []) := by
  constructor
  · intro h
    obtain ⟨front, rfl, hfront⟩ := decodeVarint_reads _ _ _ h
    have hself := hfront []
    rw [List.append_nil] at hself
    refine ⟨front, ?_⟩
    cases front with
    | nil => simp [decodeVarint] at hself
    | cons c front =>
      rw [decodeVarint] at hself
      split_ifs at hself with hlast
      · obtain ⟨-, rfl⟩ := Prod.mk.inj (Except.ok.inj hself)
        exact ⟨_, rfl, .last hlast, by rw [decodeVarint, if_pos hlast, hself]⟩
      · obtain ⟨front', n, hsplit, hn⟩ := varintTail_varint hself
        rw [List.append_nil] at hsplit
        subst hsplit
        exact ⟨_, rfl, .more (by omega) hn, by rw [decodeVarint, if_neg hlast, hself]⟩
  · rintro ⟨front, n, rfl, -, h⟩
    simpa using decodeVarint_reads.append h rest

theorem Varint.decode {s : Bytes} {n : Nat} (h : Varint s n) : ∃ w, decodeVarint s = .ok (w, []) := by
  cases h with
  | last hc => exact ⟨_, by rw [decodeVarint, if_pos hc]⟩
  | @more c s n hc hs =>
    rw [decodeVarint, if_neg (by omega)]
    simpa using hs.tail (c.toNat % 128) 7 []

/-- A number below 2^64 is read as it is. -/
theorem Varint.word {s : Bytes} {n w : Nat} (h : Varint s n) (hlt : n < 2 ^ 64)
    (hw : decodeVarint s = .ok (w, [])) : w = n := by
  have hvalue := h.value
  rw [← hvalue] at hlt ⊢
  exact decodeVarint_value hlt hw

/-! ## Instructions -/

/-- The operand bytes of an opcode, one for each of its bits that is set, and the number they make. -/
inductive Operands (op : UInt8) : List (Nat × Nat) → Bytes → Nat → Prop
  | nil : Operands op [] [] 0
  | absent {bit shift n : Nat} {more : List (Nat × Nat)} {args : Bytes} (hbit : op.toNat.testBit bit = false)
      (h : Operands op more args n) : Operands op ((bit, shift) :: more) args n
  | present {bit shift n : Nat} {more : List (Nat × Nat)} {args : Bytes} {c : UInt8}
      (hbit : op.toNat.testBit bit = true) (h : Operands op more args n) :
      Operands op ((bit, shift) :: more) (c :: args) (c.toNat * 2 ^ shift + n)

def offsetBits : List (Nat × Nat) := [(0, 0), (1, 8), (2, 16), (3, 24)]
def sizeBits : List (Nat × Nat) := [(4, 0), (5, 8), (6, 16)]

/-- A complete sequence of instructions, and what it makes of a base. -/
inductive Instructions (base : Bytes) : Bytes → Bytes → Prop
  | nil : Instructions base [] []
  | copy {op : UInt8} {offArgs sizeArgs rest out : Bytes} {off size : Nat} (hop : 128 ≤ op.toNat)
      (hoff : Operands op offsetBits offArgs off) (hsize : Operands op sizeBits sizeArgs size)
      (hrange : off + (if size = 0 then 65536 else size) ≤ base.length) (h : Instructions base rest out) :
      Instructions base (op :: (offArgs ++ (sizeArgs ++ rest)))
        ((base.drop off).take (if size = 0 then 65536 else size) ++ out)
  | insert {op : UInt8} {data rest out : Bytes} (hop : 0 < op.toNat) (hcopy : op.toNat < 128)
      (hlen : data.length = op.toNat) (h : Instructions base rest out) :
      Instructions base (op :: (data ++ rest)) (data ++ out)

/-- Operands of one byte each, from a bit on. -/
def Spaced : Nat → List (Nat × Nat) → Prop
  | _, [] => True
  | s, (_, shift) :: more => shift = s ∧ Spaced (s + 8) more

theorem Operands.dvd {op : UInt8} {bits : List (Nat × Nat)} {args : Bytes} {n s : Nat}
    (h : Operands op bits args n) (hbits : Spaced s bits) : 2 ^ s ∣ n := by
  induction h generalizing s with
  | nil => exact Nat.dvd_zero _
  | absent _ _ ih => exact (Nat.pow_dvd_pow 2 (Nat.le_add_right s 8)).trans (ih hbits.2)
  | present _ _ ih =>
    obtain ⟨rfl, hmore⟩ := hbits
    exact Nat.dvd_add (Nat.dvd_mul_left _ _) ((Nat.pow_dvd_pow 2 (Nat.le_add_right _ 8)).trans (ih hmore))

/-- The byte of an operand stands below those that follow. -/
theorem operand_or {c : UInt8} {shift n : Nat} (h : 2 ^ (shift + 8) ∣ n) :
    c.toNat <<< shift ||| n = c.toNat * 2 ^ shift + n := by
  obtain ⟨m, rfl⟩ := h
  have hlt : c.toNat * 2 ^ shift < 2 ^ (shift + 8) := by
    have := c.toNat_lt
    rw [Nat.pow_add, Nat.mul_comm]
    exact Nat.mul_lt_mul_of_pos_left this (Nat.two_pow_pos _)
  rw [Nat.shiftLeft_eq, Nat.or_comm, ← Nat.two_pow_add_eq_or_of_lt hlt, Nat.add_comm]

theorem copyArg_iff {op : UInt8} {bits : List (Nat × Nat)} {s n : Nat} (hbits : Spaced s bits)
    {delta rest : Bytes} :
    copyArg op bits delta = .ok (n, rest) ↔ ∃ args, delta = args ++ rest ∧ Operands op bits args n := by
  induction bits generalizing s n delta with
  | nil =>
    simp only [copyArg, Except.ok.injEq, Prod.mk.injEq]
    constructor
    · rintro ⟨rfl, rfl⟩
      exact ⟨[], rfl, .nil⟩
    · rintro ⟨args, rfl, h⟩
      cases h
      exact ⟨rfl, rfl⟩
  | cons b more ih =>
    obtain ⟨bit, shift⟩ := b
    obtain ⟨rfl, hmore⟩ := hbits
    by_cases hbit : op.toNat.testBit bit
    · constructor
      · intro h
        cases delta with
        | nil => simp [copyArg, hbit] at h
        | cons c delta =>
          rw [copyArg, if_pos hbit] at h
          split at h
          · simp at h
          · rename_i arg delta' harg
            obtain ⟨rfl, rfl⟩ := Prod.mk.inj (Except.ok.inj h)
            obtain ⟨args, rfl, hargs⟩ := (ih hmore).mp harg
            refine ⟨c :: args, rfl, ?_⟩
            rw [operand_or (hargs.dvd hmore)]
            exact .present hbit hargs
      · rintro ⟨args, rfl, h⟩
        cases h with
        | absent hbit' _ => simp [hbit] at hbit'
        | present _ hargs =>
          rw [List.cons_append, copyArg, if_pos hbit]
          simp only [(ih hmore).mpr ⟨_, rfl, hargs⟩, operand_or (hargs.dvd hmore)]
    · have hskip : copyArg op ((bit, shift) :: more) delta = copyArg op more delta := by
        rw [copyArg.eq_def]
        simp only [if_neg hbit]
      rw [hskip, ih hmore]
      constructor
      · rintro ⟨args, rfl, hargs⟩
        exact ⟨args, rfl, .absent (by simpa using hbit) hargs⟩
      · rintro ⟨args, rfl, h⟩
        cases h with
        | absent _ hargs => exact ⟨_, rfl, hargs⟩
        | present hbit' _ => exact absurd hbit' hbit

theorem offsetBits_spaced : Spaced 0 offsetBits := ⟨rfl, rfl, rfl, rfl, trivial⟩
theorem sizeBits_spaced : Spaced 0 sizeBits := ⟨rfl, rfl, rfl, trivial⟩

/-- One instruction at the front, and what it adds. -/
inductive Instruction (base : Bytes) (op : UInt8) : Bytes → Bytes → Prop
  | copy {offArgs sizeArgs : Bytes} {off size : Nat} (hop : 128 ≤ op.toNat)
      (hoff : Operands op offsetBits offArgs off) (hsize : Operands op sizeBits sizeArgs size)
      (hrange : off + (if size = 0 then 65536 else size) ≤ base.length) :
      Instruction base op (offArgs ++ sizeArgs) ((base.drop off).take (if size = 0 then 65536 else size))
  | insert {data : Bytes} (hop : 0 < op.toNat) (hcopy : op.toNat < 128) (hlen : data.length = op.toNat) :
      Instruction base op data data

theorem applyOp_iff {base delta added rest : Bytes} {op : UInt8} :
    applyOp base op delta = .ok (added, rest) ↔
      ∃ args, delta = args ++ rest ∧ Instruction base op args added := by
  unfold applyOp
  by_cases hop : 128 ≤ op.toNat
  · rw [if_pos hop]
    unfold applyCopy
    constructor
    · intro h
      split at h
      · simp at h
      rename_i off delta₁ hoff
      split at h
      · simp at h
      rename_i size delta₂ hsize
      obtain ⟨offArgs, rfl, hoffArgs⟩ := (copyArg_iff offsetBits_spaced).mp hoff
      obtain ⟨sizeArgs, rfl, hsizeArgs⟩ := (copyArg_iff sizeBits_spaced).mp hsize
      simp only at h
      by_cases hrange : base.length < off + if size = 0 then 0x10000 else size
      · rw [if_pos hrange] at h
        simp at h
      · rw [if_neg hrange] at h
        obtain ⟨rfl, rfl⟩ := Prod.mk.inj (Except.ok.inj h)
        exact ⟨offArgs ++ sizeArgs, by rw [List.append_assoc], .copy hop hoffArgs hsizeArgs (by omega)⟩
    · rintro ⟨args, rfl, h⟩
      cases h with
      | @copy offArgs sizeArgs off size _ hoff hsize hrange =>
        have hoff' : copyArg op [(0, 0), (1, 8), (2, 16), (3, 24)] (offArgs ++ (sizeArgs ++ rest)) =
            .ok (off, sizeArgs ++ rest) := (copyArg_iff offsetBits_spaced).mpr ⟨offArgs, rfl, hoff⟩
        have hsize' : copyArg op [(4, 0), (5, 8), (6, 16)] (sizeArgs ++ rest) = .ok (size, rest) :=
          (copyArg_iff sizeBits_spaced).mpr ⟨sizeArgs, rfl, hsize⟩
        rw [List.append_assoc, hoff']
        simp only [hsize']
        rw [if_neg (by omega)]
      | insert _ hcopy _ => omega
  · rw [if_neg hop]
    by_cases hzero : 0 < op.toNat
    · rw [if_pos hzero, applyInsert]
      constructor
      · intro h
        split_ifs at h with hshort
        obtain ⟨rfl, rfl⟩ := Prod.mk.inj (Except.ok.inj h)
        refine ⟨delta.take op.toNat, (List.take_append_drop _ _).symm, .insert hzero (by omega) ?_⟩
        rw [List.length_take]
        omega
      · rintro ⟨args, rfl, h⟩
        cases h with
        | copy hop' _ _ _ => exact absurd hop' hop
        | insert _ _ hlen =>
          rw [if_neg (by rw [List.length_append]; omega), List.take_left' hlen, List.drop_left' hlen]
    · rw [if_neg hzero]
      constructor
      · intro h
        simp at h
      · rintro ⟨args, -, h⟩
        cases h with
        | copy hop' _ _ _ => exact absurd hop' hop
        | insert hzero' _ _ => exact absurd hzero' hzero

theorem Instructions.cons_iff {base delta out : Bytes} {op : UInt8} :
    Instructions base (op :: delta) out ↔
      ∃ args rest added out', delta = args ++ rest ∧ out = added ++ out' ∧ Instruction base op args added ∧
        Instructions base rest out' := by
  constructor
  · intro h
    cases h with
    | copy hop hoff hsize hrange h =>
      exact ⟨_, _, _, _, (List.append_assoc _ _ _).symm, rfl, .copy hop hoff hsize hrange, h⟩
    | insert hop hcopy hlen h => exact ⟨_, _, _, _, rfl, rfl, .insert hop hcopy hlen, h⟩
  · rintro ⟨args, rest, added, out', rfl, rfl, hop, h⟩
    cases hop with
    | copy hop hoff hsize hrange =>
      rw [List.append_assoc]
      exact .copy hop hoff hsize hrange h
    | insert hop hcopy hlen => exact .insert hop hcopy hlen h

/-- The loop over the opcodes takes exactly the complete sequences of instructions. -/
theorem applyOps_iff {base delta out res : Bytes} {fuel : Nat} (hfuel : delta.length ≤ fuel) :
    applyOps base fuel delta out = .ok res ↔ ∃ made, Instructions base delta made ∧ res = out ++ made := by
  induction fuel generalizing delta out with
  | zero =>
    obtain rfl := List.eq_nil_of_length_eq_zero (Nat.le_zero.mp hfuel)
    simp only [applyOps, Except.ok.injEq]
    constructor
    · rintro rfl
      exact ⟨[], .nil, (List.append_nil _).symm⟩
    · rintro ⟨made, h, rfl⟩
      cases h
      exact (List.append_nil _).symm
  | succ fuel ih =>
    cases delta with
    | nil =>
      simp only [applyOps, Except.ok.injEq]
      constructor
      · rintro rfl
        exact ⟨[], .nil, (List.append_nil _).symm⟩
      · rintro ⟨made, h, rfl⟩
        cases h
        exact (List.append_nil _).symm
    | cons op delta =>
      rw [List.length_cons] at hfuel
      rw [applyOps]
      constructor
      · intro h
        split at h
        · simp at h
        rename_i added rest hop
        obtain ⟨args, rfl, hargs⟩ := applyOp_iff.mp hop
        rw [List.length_append] at hfuel
        obtain ⟨made, hmade, rfl⟩ := (ih (by omega)).mp h
        exact ⟨added ++ made, Instructions.cons_iff.mpr ⟨args, rest, added, made, rfl, rfl, hargs, hmade⟩,
          List.append_assoc _ _ _⟩
      · rintro ⟨made, h, rfl⟩
        obtain ⟨args, rest, added, out', rfl, rfl, hop, h⟩ := Instructions.cons_iff.mp h
        rw [List.length_append] at hfuel
        rw [applyOp_iff.mpr ⟨args, rfl, hop⟩]
        exact (ih (by omega)).mpr ⟨out', h, (List.append_assoc _ _ _).symm⟩

/-! ## Whole deltas -/

/-- Two sizes below 2^64, the first that of the base, and instructions that make as many bytes as the second. -/
def ValidDelta (base delta out : Bytes) : Prop :=
  ∃ s₁ n₁ s₂ n₂ rest, delta = s₁ ++ (s₂ ++ rest) ∧ Varint s₁ n₁ ∧ Varint s₂ n₂ ∧ n₁ < 2 ^ 64 ∧ n₂ < 2 ^ 64 ∧
    n₁ = base.length ∧ Instructions base rest out ∧ out.length = n₂

/-- The delta is applied if and only if it is valid, and no call panics. -/
def AppliesExactly (base delta : Bytes) : Prop :=
  (∀ out, applyGitDelta base delta = .ok out ↔ ValidDelta base delta out) ∧
  ∀ n, applyGitDelta base delta ≠ .error (.capacityOverflow n)

/-- The second size, as it is read, can be a capacity. Where the instructions make that many bytes, the first
size is that of the base, and neither was read short. -/
def SizesHold (base delta : Bytes) : Prop :=
  ∀ s₁ n₁ s₂ n₂ w rest, delta = s₁ ++ (s₂ ++ rest) → Varint s₁ n₁ → Varint s₂ n₂ →
    decodeVarint s₂ = .ok (w, []) →
      w ≤ maxCapacity ∧ ((∃ out, Instructions base rest out ∧ out.length = w) →
        n₁ = base.length ∧ n₁ < 2 ^ 64 ∧ n₂ < 2 ^ 64)

section Apply

variable {base s₁ s₂ rest : Bytes} {n₁ n₂ w : Nat}

theorem applyGitDelta_parts (h₁ : Varint s₁ n₁) (hw : decodeVarint s₂ = .ok (w, [])) :
    applyGitDelta base (s₁ ++ (s₂ ++ rest)) =
      if maxCapacity < w then .error (.capacityOverflow w)
      else
        match applyOps base rest.length rest [] with
        | .error e => .error e
        | .ok out => if out.length = w then .ok out else .error (.resultSize out.length w) := by
  obtain ⟨w₁, hw₁⟩ := h₁.decode
  have hread₁ := decodeVarint_reads.append hw₁ (s₂ ++ rest)
  have hread₂ := decodeVarint_reads.append hw rest
  rw [List.nil_append] at hread₁ hread₂
  unfold applyGitDelta
  rw [hread₁]
  simp only [hread₂]
  all_goals rfl

theorem applyGitDelta_ok_iff (h₁ : Varint s₁ n₁) (hw : decodeVarint s₂ = .ok (w, [])) (out : Bytes) :
    applyGitDelta base (s₁ ++ (s₂ ++ rest)) = .ok out ↔
      w ≤ maxCapacity ∧ Instructions base rest out ∧ out.length = w := by
  rw [applyGitDelta_parts h₁ hw]
  by_cases hcap : maxCapacity < w
  · rw [if_pos hcap]
    simp only [reduceCtorEq, false_iff]
    omega
  rw [if_neg hcap]
  constructor
  · intro h
    split at h
    · simp at h
    rename_i out' hout
    split_ifs at h with hlen
    obtain rfl := Except.ok.inj h
    obtain ⟨made, hmade, rfl⟩ := (applyOps_iff (Nat.le_refl _)).mp hout
    exact ⟨by omega, by simpa using hmade, hlen⟩
  · rintro ⟨-, hmade, hlen⟩
    have hout : applyOps base rest.length rest [] = .ok out :=
      (applyOps_iff (Nat.le_refl _)).mpr ⟨out, hmade, rfl⟩
    rw [hout]
    simp only [hlen, if_true]

end Apply

/-! ### Panics -/

/-- The failures that are errors. -/
def PackError.Returned (e : PackError) : Prop := ∀ n, e ≠ .capacityOverflow n

theorem varintTail_returned {eof e : PackError} (heof : eof.Returned) {s : Bytes} {val shift : Nat}
    (h : varintTail eof val shift s = .error e) : e.Returned := by
  induction s generalizing val shift with
  | nil =>
    obtain rfl := Except.error.inj h
    exact heof
  | cons c s ih =>
    rw [varintTail] at h
    split_ifs at h
    exact ih h

theorem decodeVarint_returned {s : Bytes} {e : PackError} (h : decodeVarint s = .error e) : e.Returned := by
  cases s with
  | nil =>
    obtain rfl := Except.error.inj h
    simp [PackError.Returned]
  | cons c s =>
    rw [decodeVarint] at h
    split_ifs at h
    exact varintTail_returned (by simp [PackError.Returned]) h

theorem copyArg_returned {op : UInt8} {bits : List (Nat × Nat)} {delta : Bytes} {e : PackError}
    (h : copyArg op bits delta = .error e) : e.Returned := by
  induction bits generalizing delta with
  | nil => simp [copyArg] at h
  | cons b more ih =>
    obtain ⟨bit, shift⟩ := b
    rw [copyArg.eq_def] at h
    simp only at h
    split_ifs at h
    · split at h
      · obtain rfl := Except.error.inj h
        simp [PackError.Returned]
      · split at h
        · rename_i harg
          obtain rfl := Except.error.inj h
          exact ih harg
        · simp at h
    · exact ih h

theorem applyOp_returned {base delta : Bytes} {op : UInt8} {e : PackError}
    (h : applyOp base op delta = .error e) : e.Returned := by
  unfold applyOp applyCopy applyInsert at h
  split_ifs at h
  · split at h
    · rename_i hoff
      obtain rfl := Except.error.inj h
      exact copyArg_returned hoff
    · split at h
      · rename_i hsize
        obtain rfl := Except.error.inj h
        exact copyArg_returned hsize
      · simp only at h
        split_ifs at h <;>
        · obtain rfl := Except.error.inj h
          simp [PackError.Returned]
  · obtain rfl := Except.error.inj h
    simp [PackError.Returned]
  · obtain rfl := Except.error.inj h
    simp [PackError.Returned]

theorem applyOps_returned {base : Bytes} {fuel : Nat} {delta out : Bytes} {e : PackError}
    (h : applyOps base fuel delta out = .error e) : e.Returned := by
  induction fuel generalizing delta out with
  | zero => cases delta <;> simp [applyOps] at h
  | succ fuel ih =>
    cases delta with
    | nil => simp [applyOps] at h
    | cons op delta =>
      rw [applyOps] at h
      split at h
      · rename_i hop
        obtain rfl := Except.error.inj h
        exact applyOp_returned hop
      · exact ih h

/-- A delta without its two sizes is an error. -/
theorem applyGitDelta_split (base delta : Bytes) :
    (∃ e, applyGitDelta base delta = .error e ∧ e.Returned) ∨
      ∃ s₁ n₁ s₂ n₂ w rest, delta = s₁ ++ (s₂ ++ rest) ∧ Varint s₁ n₁ ∧ Varint s₂ n₂ ∧
        decodeVarint s₂ = .ok (w, []) := by
  cases hw₁ : decodeVarint delta with
  | error e => exact .inl ⟨e, by rw [applyGitDelta, hw₁], decodeVarint_returned hw₁⟩
  | ok r₁ =>
    obtain ⟨w₁, delta'⟩ := r₁
    obtain ⟨s₁, n₁, rfl, h₁, -⟩ := decodeVarint_iff.mp hw₁
    cases hw₂ : decodeVarint delta' with
    | error e =>
      refine .inl ⟨e, ?_, decodeVarint_returned hw₂⟩
      rw [applyGitDelta, hw₁]
      simp only [hw₂]
    | ok r₂ =>
      obtain ⟨w, rest⟩ := r₂
      obtain ⟨s₂, n₂, rfl, h₂, hw⟩ := decodeVarint_iff.mp hw₂
      exact .inr ⟨s₁, n₁, s₂, n₂, w, rest, rfl, h₁, h₂, hw⟩

/-! ### Which deltas are applied -/

theorem ValidDelta.sizes {base s₁ s₂ rest out : Bytes} {n₁ n₂ : Nat} (h₁ : Varint s₁ n₁) (h₂ : Varint s₂ n₂) :
    ValidDelta base (s₁ ++ (s₂ ++ rest)) out ↔
      n₁ < 2 ^ 64 ∧ n₂ < 2 ^ 64 ∧ n₁ = base.length ∧ Instructions base rest out ∧ out.length = n₂ := by
  constructor
  · rintro ⟨s₁', n₁', s₂', n₂', rest', heq, h₁', h₂', h⟩
    obtain ⟨rfl, rfl, heq⟩ := h₁.unique h₁' heq
    obtain ⟨rfl, rfl, rfl⟩ := h₂.unique h₂' heq
    exact h
  · intro h
    exact ⟨s₁, n₁, s₂, n₂, rest, rfl, h₁, h₂, h⟩

/-- A delta is applied exactly if it is valid, on the deltas whose sizes hold and on no others. -/
theorem applyGitDelta_exact_iff (base delta : Bytes) : AppliesExactly base delta ↔ SizesHold base delta := by
  constructor
  · rintro ⟨happlies, hpanic⟩ s₁ n₁ s₂ n₂ w rest rfl h₁ h₂ hw
    have hcap : w ≤ maxCapacity := by
      by_contra hover
      apply hpanic w
      rw [applyGitDelta_parts h₁ hw, if_pos (by omega)]
    refine ⟨hcap, ?_⟩
    rintro ⟨out, hmade, hlen⟩
    have hvalid := (happlies out).mp ((applyGitDelta_ok_iff h₁ hw out).mpr ⟨hcap, hmade, hlen⟩)
    obtain ⟨hlt₁, hlt₂, hbase, -⟩ := (ValidDelta.sizes h₁ h₂).mp hvalid
    exact ⟨hbase, hlt₁, hlt₂⟩
  · intro hsizes
    rcases applyGitDelta_split base delta with ⟨e, he, hreturned⟩ | ⟨s₁, n₁, s₂, n₂, w, rest, rfl, h₁, h₂, hw⟩
    · refine ⟨fun out => ?_, fun n => ?_⟩
      · rw [he]
        simp only [reduceCtorEq, false_iff]
        rintro ⟨s₁, n₁, s₂, n₂, rest, rfl, h₁, h₂, hlt₁, hlt₂, hbase, hmade, hlen⟩
        obtain ⟨w, hw⟩ := h₂.decode
        have hword := h₂.word hlt₂ hw
        have hcap := (hsizes s₁ n₁ s₂ n₂ w rest rfl h₁ h₂ hw).1
        have hok := (applyGitDelta_ok_iff h₁ hw out).mpr ⟨hcap, hmade, hlen.trans hword.symm⟩
        rw [he] at hok
        simp at hok
      · rw [he]
        intro heq
        exact hreturned n (Except.error.inj heq)
    · obtain ⟨hcap, hhold⟩ := hsizes s₁ n₁ s₂ n₂ w rest rfl h₁ h₂ hw
      refine ⟨fun out => ?_, fun n => ?_⟩
      · rw [applyGitDelta_ok_iff h₁ hw, ValidDelta.sizes h₁ h₂]
        constructor
        · rintro ⟨-, hmade, hlen⟩
          obtain ⟨hbase, hlt₁, hlt₂⟩ := hhold ⟨out, hmade, hlen⟩
          exact ⟨hlt₁, hlt₂, hbase, hmade, hlen.trans (h₂.word hlt₂ hw)⟩
        · rintro ⟨-, hlt₂, -, hmade, hlen⟩
          exact ⟨hcap, hmade, hlen.trans (h₂.word hlt₂ hw).symm⟩
      · rw [applyGitDelta_parts h₁ hw, if_neg (by omega)]
        intro h
        split at h
        · rename_i e he
          exact applyOps_returned he n (Except.error.inj h)
        · split_ifs at h
          simp at h

/-- A delta for a base of two bytes, applied to a base of three. -/
theorem applyGitDelta_other_base :
    applyGitDelta [1, 2, 3] [2, 2, 0x90, 2] = .ok [1, 2] ∧ ¬ ValidDelta [1, 2, 3] [2, 2, 0x90, 2] [1, 2] ∧
    applyGitDelta [] ([0] ++ (List.replicate 9 0x80 ++ [1])) = .error (.capacityOverflow (2 ^ 63)) := by
  refine ⟨by decide +kernel, fun h => ?_, by decide +kernel⟩
  have hsize : Varint [2] 2 := .last (by decide)
  have hsizes := (ValidDelta.sizes hsize hsize).mp h
  exact absurd hsizes.2.2.1 (by decide)

end GitNfs
