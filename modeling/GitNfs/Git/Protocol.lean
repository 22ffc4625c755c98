import GitNfs.Text
import Mathlib.Tactic.ByContra

/-! # The lines of a server

A response is a list of pkt-lines: four characters with the length of the line in hexadecimal, themselves
counted, and then the line.
-/

namespace GitNfs

/-- How a call ends. -/
inductive Outcome (ε α : Type) where
  | ok (a : α)
  | err (e : ε)
  | panics
  deriving DecidableEq, Repr

inductive PktError where
  | invalidUtf8
  | invalidLength (lenStr : Str)
  | exceeds (lineLen available : Nat)
  | remote (message : Str)
  | noPack
  deriving DecidableEq, Repr

def hexDigits : Str → Nat → Option Nat
  | [], acc => some acc
  | c :: cs, acc =>
    match hexValue c with
    | some d => hexDigits cs (16 * acc + d)
    | none => none

/-- `usize::from_str_radix(s, 16)`, which takes a plus sign. -/
def fromStrRadix16 (s : Str) : Option Nat :=
  let digits := match s with
    | '+' :: rest => rest
    | _ => s
  if digits = [] then none
  else match hexDigits digits 0 with
    | some n => if n < 2 ^ 64 then some n else none
    | none => none

/-- `&data[start..stop]`. -/
def slice (data : Bytes) (start stop : Nat) : Option Bytes :=
  if start ≤ stop ∧ stop ≤ data.length then some ((data.drop start).take (stop - start)) else none

/-! ## The loops -/

/-- What a reader finds at a position. -/
inductive Pkt where
  | short
  | special
  | beyond (lineLen : Nat)
  | line (chunk : Bytes) (next : Nat)
  deriving DecidableEq, Repr

def readPkt (data : Bytes) (idx : Nat) : Outcome PktError Pkt :=
  if data.length < idx + 4 then .ok .short
  else
    match fromUtf8 ((data.drop idx).take 4) with
    | none => .err .invalidUtf8
    | some lenStr =>
      match fromStrRadix16 lenStr with
      | none => .err (.invalidLength lenStr)
      | some lineLen =>
        if lineLen = 0 ∨ lineLen = 1 then .ok .special
        else if data.length < idx + lineLen then .ok (.beyond lineLen)
        else
          match slice data (idx + 4) (idx + lineLen) with
          | none => .panics
          | some chunk => .ok (.line chunk (idx + lineLen))

/-- The loop of both readers: what they do with a line that is longer than the rest, and with a line. -/
def pktLoop {α : Type} (beyond : Nat → Nat → α → Outcome PktError α) (line : α → Bytes → Except PktError α)
    (data : Bytes) : Nat → Nat → α → Option (Outcome PktError α)
  | fuel, idx, acc =>
    if data.length ≤ idx then some (.ok acc)
    else
      match fuel with
      | 0 => none
      | fuel + 1 =>
        match readPkt data idx with
        | .err e => some (.err e)
        | .panics => some .panics
        | .ok .short => some (.ok acc)
        | .ok .special => pktLoop beyond line data fuel (idx + 4) acc
        | .ok (.beyond lineLen) => some (beyond lineLen (data.length - idx) acc)
        | .ok (.line chunk next) =>
          match line acc chunk with
          | .error e => some (.err e)
          | .ok acc => pktLoop beyond line data fuel next acc

def pushLine (lines : List Str) (chunk : Bytes) : Except PktError (List Str) :=
  .ok (lines ++ [(fromUtf8Lossy chunk).rdropWhile (· == '\n')])

/-- What a sideband channel adds to the pack. -/
def sideband (pack chunk : Bytes) : Except PktError Bytes :=
  match chunk with
  | [] => .ok pack
  | c :: payload =>
    if c = 1 then .ok (pack ++ payload)
    else if c = 2 then .ok pack
    else if c = 3 then .error (.remote (fromUtf8Lossy payload))
    else if (asBytes "PACK".toList).isPrefixOf chunk then .ok (pack ++ chunk)
    else .ok pack

/-- The bytes from the first `PACK` on. -/
def rawPack : Bytes → Option Bytes
  | [] => none
  | c :: data => if (asBytes "PACK".toList).isPrefixOf (c :: data) then some (c :: data) else rawPack data

def parsePktLines (data : Bytes) : Option (Outcome PktError (List Str)) :=
  pktLoop (fun _ _ lines => .ok lines) pushLine data data.length 0 []

def extractPackFromSideband (data : Bytes) : Option (Outcome PktError Bytes) :=
  match pktLoop (fun lineLen available _ => .err (.exceeds lineLen available)) sideband data data.length 0 [] with
  | some (.ok []) =>
    match rawPack data with
    | some pack => some (.ok pack)
    | none => some (.err .noPack)
  | r => r

/-! ## One line -/

/-- The length that is read at a position. -/
def lengthField (data : Bytes) (idx : Nat) : Option Nat :=
  if data.length < idx + 4 then none else (fromUtf8 ((data.drop idx).take 4)).bind fromStrRadix16

/-- A slice ends before it starts for the lengths two and three, and for no others. -/
theorem readPkt_panics {data : Bytes} {idx : Nat} :
    readPkt data idx = .panics ↔ lengthField data idx = some 2 ∨ lengthField data idx = some 3 := by
  unfold readPkt lengthField
  by_cases hshort : data.length < idx + 4
  · simp [hshort]
  rw [if_neg hshort, if_neg hshort]
  cases fromUtf8 ((data.drop idx).take 4) with
  | none => simp
  | some lenStr =>
    simp only [Option.bind_some]
    cases fromStrRadix16 lenStr with
    | none => simp
    | some lineLen =>
      simp only [Option.some.injEq]
      by_cases hspecial : lineLen = 0 ∨ lineLen = 1
      · rw [if_pos hspecial]
        simp only [reduceCtorEq, false_iff]
        omega
      · rw [if_neg hspecial]
        by_cases hbeyond : data.length < idx + lineLen
        · rw [if_pos hbeyond]
          simp only [reduceCtorEq, false_iff]
          omega
        · rw [if_neg hbeyond]
          unfold slice
          by_cases hsmall : lineLen < 4
          · rw [if_neg (by omega)]
            simp only [true_iff]
            omega
          · rw [if_pos (by omega)]
            simp only [reduceCtorEq, false_iff]
            omega

theorem readPkt_special {data : Bytes} {idx : Nat} (h : readPkt data idx = .ok .special) :
    idx + 4 ≤ data.length := by
  by_contra hshort
  unfold readPkt at h
  rw [if_pos (by omega)] at h
  simp at h

theorem readPkt_line {data chunk : Bytes} {idx next : Nat} (h : readPkt data idx = .ok (.line chunk next)) :
    idx + 4 ≤ next ∧ next ≤ data.length := by
  unfold readPkt at h
  split_ifs at h with hshort
  · simp at h
  split at h
  · simp at h
  split at h
  · simp at h
  split_ifs at h with hspecial hbeyond
  · simp at h
  · simp at h
  split at h
  · simp at h
  · rename_i hslice
    simp only [Outcome.ok.injEq, Pkt.line.injEq] at h
    obtain ⟨-, rfl⟩ := h
    unfold slice at hslice
    split_ifs at hslice with hrange
    omega

/-- Where the next iteration reads. -/
def PktStep (data : Bytes) (idx next : Nat) : Prop :=
  (readPkt data idx = .ok .special ∧ next = idx + 4) ∨ ∃ chunk, readPkt data idx = .ok (.line chunk next)

theorem PktStep.forward {data : Bytes} {idx next : Nat} (h : PktStep data idx next) :
    idx < next ∧ next ≤ data.length := by
  rcases h with ⟨h, rfl⟩ | ⟨chunk, h⟩
  · have := readPkt_special h
    omega
  · have := readPkt_line h
    omega

/-! ## All lines -/

section Loop

variable {α : Type} {beyond : Nat → Nat → α → Outcome PktError α} {line : α → Bytes → Except PktError α}
  {data : Bytes}

/-- The positions that a loop reads at, and what it has read before. -/
inductive Reached (line : α → Bytes → Except PktError α) (data : Bytes) (start : α) : Nat → α → Prop
  | start : Reached line data start 0 start
  | special {idx : Nat} {acc : α} (h : Reached line data start idx acc)
      (hread : readPkt data idx = .ok .special) : Reached line data start (idx + 4) acc
  | line {idx next : Nat} {acc acc' : α} {chunk : Bytes} (h : Reached line data start idx acc)
      (hread : readPkt data idx = .ok (.line chunk next)) (hline : line acc chunk = .ok acc') :
      Reached line data start next acc'

/-- A reader returns, it always moves on inside the buffer, and it takes every slice inside the buffer. -/
structure Total (line : α → Bytes → Except PktError α) (start : α) (data : Bytes)
    (result : Option (Outcome PktError α)) : Prop where
  returns : (∃ a, result = some (.ok a)) ∨ ∃ e, result = some (.err e)
  forward : ∀ idx acc next, Reached line data start idx acc → PktStep data idx next →
    idx < next ∧ next ≤ data.length
  slices : ∀ idx acc, Reached line data start idx acc → readPkt data idx ≠ .panics

/-- No line that is read gives its length as two or three. -/
def LongLines (line : α → Bytes → Except PktError α) (start : α) (data : Bytes) : Prop :=
  ∀ idx acc, Reached line data start idx acc →
    lengthField data idx ≠ some 2 ∧ lengthField data idx ≠ some 3

theorem LongLines.slices {start : α} (h : LongLines line start data) {idx : Nat} {acc : α}
    (hreached : Reached line data start idx acc) : readPkt data idx ≠ .panics := by
  intro hpanics
  obtain ⟨htwo, hthree⟩ := h idx acc hreached
  rcases readPkt_panics.mp hpanics with hfield | hfield
  · exact htwo hfield
  · exact hthree hfield

theorem pktLoop_returns {start : α} (hbeyond : ∀ n m a, beyond n m a ≠ .panics)
    (hlong : LongLines line start data) (fuel idx : Nat) (acc : α) (hreached : Reached line data start idx acc)
    (hfuel : data.length ≤ idx + fuel) :
    (∃ a, pktLoop beyond line data fuel idx acc = some (.ok a)) ∨
      ∃ e, pktLoop beyond line data fuel idx acc = some (.err e) := by
  induction fuel generalizing idx acc with
  | zero =>
    rw [Nat.add_zero] at hfuel
    unfold pktLoop
    rw [if_pos hfuel]
    exact .inl ⟨acc, rfl⟩
  | succ fuel ih =>
    unfold pktLoop
    by_cases hend : data.length ≤ idx
    · rw [if_pos hend]
      exact .inl ⟨acc, rfl⟩
    rw [if_neg hend]
    simp only
    cases hread : readPkt data idx with
    | err e => exact .inr ⟨e, rfl⟩
    | panics => exact absurd hread (hlong.slices hreached)
    | ok pkt =>
      cases pkt with
      | short => exact .inl ⟨acc, rfl⟩
      | special => exact ih (idx + 4) acc (.special hreached hread) (by omega)
      | beyond lineLen =>
        simp only
        cases hb : beyond lineLen (data.length - idx) acc with
        | ok a => exact .inl ⟨a, rfl⟩
        | err e => exact .inr ⟨e, rfl⟩
        | panics => exact absurd hb (hbeyond _ _ _)
      | line chunk next =>
        simp only
        cases hline : line acc chunk with
        | error e => exact .inr ⟨e, rfl⟩
        | ok acc' =>
          have := readPkt_line hread
          exact ih next acc' (.line hreached hread hline) (by omega)

theorem Total.longLines {start : α} {result : Option (Outcome PktError α)}
    (h : Total line start data result) : LongLines line start data := by
  intro idx acc hreached
  have hslice := h.slices idx acc hreached
  constructor
  · intro hfield
    exact hslice (readPkt_panics.mpr (.inl hfield))
  · intro hfield
    exact hslice (readPkt_panics.mpr (.inr hfield))

end Loop

/-- Both readers are total on the responses in which no line that they reach has the length two or three. -/
theorem pkt_readers_total_iff (data : Bytes) :
    (Total pushLine [] data (parsePktLines data) ↔ LongLines pushLine [] data) ∧
    (Total sideband [] data (extractPackFromSideband data) ↔ LongLines sideband [] data) := by
  constructor
  · refine ⟨Total.longLines, fun hlong => ⟨?_, fun _ _ _ _ hstep => hstep.forward, fun _ _ => hlong.slices⟩⟩
    exact pktLoop_returns (by simp) hlong _ 0 [] .start (by omega)
  · refine ⟨Total.longLines, fun hlong => ⟨?_, fun _ _ _ _ hstep => hstep.forward, fun _ _ => hlong.slices⟩⟩
    unfold extractPackFromSideband
    have hbeyond : ∀ n m (_ : Bytes), (.err (.exceeds n m) : Outcome PktError Bytes) ≠ .panics := by simp
    rcases pktLoop_returns hbeyond hlong data.length 0 [] .start (by omega) with ⟨pack, h⟩ | ⟨e, h⟩
    · rw [h]
      cases pack with
      | nil =>
        simp only
        cases rawPack data with
        | some pack => exact .inl ⟨pack, rfl⟩
        | none => exact .inr ⟨_, rfl⟩
      | cons b pack => exact .inl ⟨_, rfl⟩
    · rw [h]
      exact .inr ⟨e, rfl⟩

/-- Four characters that say two. -/
def shortLine : Bytes := asBytes "0002".toList

theorem pkt_readers_panic :
    (parsePktLines shortLine = some .panics ∧ extractPackFromSideband shortLine = some .panics) ∧
    ¬ Total pushLine [] shortLine (parsePktLines shortLine) ∧
    ¬ Total sideband [] shortLine (extractPackFromSideband shortLine) := by
  have hpanics : parsePktLines shortLine = some .panics ∧ extractPackFromSideband shortLine = some .panics := by
    decide +kernel
  refine ⟨hpanics, fun h => ?_, fun h => ?_⟩
  · rcases h.returns with ⟨a, ha⟩ | ⟨e, he⟩
    · simp [hpanics.1] at ha
    · simp [hpanics.1] at he
  · rcases h.returns with ⟨a, ha⟩ | ⟨e, he⟩
    · simp [hpanics.2] at ha
    · simp [hpanics.2] at he

/-- The tests of the source. -/
example : parsePktLines (asBytes "000ahello\n0000000aworld\n".toList) =
    some (.ok ["hello".toList, "world".toList]) := by decide +kernel

end GitNfs
