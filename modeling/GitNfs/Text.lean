import Mathlib.Algebra.Group.Nat.Defs
import Mathlib.Data.List.DropRight
import Mathlib.Data.List.Sort

/-! # Text and bytes

A Rust `String` is a list of Unicode scalar values here, and a `Vec<u8>` a list of bytes.
-/

namespace GitNfs

abbrev Str := List Char

abbrev Bytes := List UInt8

/-! ## UTF-8 -/

def asBytes (s : Str) : Bytes := s.flatMap String.utf8EncodeChar

/-- The character that a byte string starts with, if it starts with a whole one. -/
def firstChar (b : Bytes) : Option Char := (ByteArray.mk b.toArray).utf8DecodeChar? 0

/-- `std::str::from_utf8`, at most `fuel` characters. -/
def fromUtf8Loop : Nat → Bytes → Option Str
  | _, [] => some []
  | 0, _ :: _ => none
  | fuel + 1, b :: bs =>
    match firstChar (b :: bs) with
    | none => none
    | some c => (fromUtf8Loop fuel ((b :: bs).drop c.utf8Size)).map (c :: ·)

def fromUtf8 (b : Bytes) : Option Str := fromUtf8Loop b.length b

/-- How many bytes of a broken sequence one U+FFFD stands for. -/
def brokenLength : Bytes → Nat
  | a :: b :: c :: _ =>
    if secondOk a b then (if 0xF0 ≤ a ∧ 0x80 ≤ c ∧ c ≤ 0xBF then 3 else 2) else 1
  | [a, b] => if secondOk a b then 2 else 1
  | _ => 1
where
  /-- Whether `b` may follow the lead byte `a` of a sequence of three or four bytes. -/
  secondOk (a b : UInt8) : Bool :=
    (a = 0xE0 ∧ 0xA0 ≤ b ∧ b ≤ 0xBF) ∨ (a = 0xED ∧ 0x80 ≤ b ∧ b ≤ 0x9F) ∨
    (0xE1 ≤ a ∧ a ≤ 0xEF ∧ a ≠ 0xED ∧ 0x80 ≤ b ∧ b ≤ 0xBF) ∨
    (a = 0xF0 ∧ 0x90 ≤ b ∧ b ≤ 0xBF) ∨ (a = 0xF4 ∧ 0x80 ≤ b ∧ b ≤ 0x8F) ∨
    (0xF1 ≤ a ∧ a ≤ 0xF3 ∧ 0x80 ≤ b ∧ b ≤ 0xBF)

def fromUtf8LossyLoop : Nat → Bytes → Str
  | _, [] => []
  | 0, _ :: _ => []
  | fuel + 1, b :: bs =>
    match firstChar (b :: bs) with
    | some c => c :: fromUtf8LossyLoop fuel ((b :: bs).drop c.utf8Size)
    | none => '\uFFFD' :: fromUtf8LossyLoop fuel ((b :: bs).drop (brokenLength (b :: bs)))

/-- `String::from_utf8_lossy`. -/
def fromUtf8Lossy (b : Bytes) : Str := fromUtf8LossyLoop b.length b

theorem firstChar_encode (c : Char) (rest : Bytes) :
    firstChar (String.utf8EncodeChar c ++ rest) = some c := by
  have h := List.utf8DecodeChar?_utf8Encode_singleton_append (b := ByteArray.mk rest.toArray) (c := c)
  rw [firstChar, ← h]
  congr 1
  ext1
  simp [List.utf8Encode]

theorem encode_ne_nil (c : Char) : String.utf8EncodeChar c ≠ [] := by
  intro h
  have hlen := String.length_utf8EncodeChar c
  rw [h, List.length_nil] at hlen
  exact absurd hlen.symm (Char.utf8Size_pos c).ne'

theorem fromUtf8Loop_asBytes (s : Str) (fuel : Nat) (h : s.length ≤ fuel) :
    fromUtf8Loop fuel (asBytes s) = some s := by
  induction s generalizing fuel with
  | nil => cases fuel <;> rfl
  | cons c cs ih =>
    obtain ⟨n, rfl⟩ : ∃ n, fuel = n + 1 := ⟨fuel - 1, by simp at h; omega⟩
    have hcons : asBytes (c :: cs) = String.utf8EncodeChar c ++ asBytes cs := rfl
    obtain ⟨b, bs, hb⟩ := List.exists_cons_of_ne_nil (l := asBytes (c :: cs))
      (by rw [hcons]; simp)
    have hfirst : firstChar (b :: bs) = some c := by rw [← hb, hcons, firstChar_encode]
    have hdrop : (b :: bs).drop c.utf8Size = asBytes cs := by
      rw [← hb, hcons, ← String.length_utf8EncodeChar c, List.drop_left]
    rw [hb, fromUtf8Loop, hfirst]
    simp only [hdrop]
    rw [ih n (by simp at h; omega)]
    rfl

theorem length_le_asBytes (s : Str) : s.length ≤ (asBytes s).length := by
  induction s with
  | nil => simp
  | cons c cs ih =>
    have hc : 0 < (String.utf8EncodeChar c).length := List.length_pos_iff.mpr (encode_ne_nil c)
    simp only [asBytes, List.flatMap_cons, List.length_append, List.length_cons] at ih ⊢
    omega

/-- A `String` comes back from its bytes. -/
theorem fromUtf8_asBytes (s : Str) : fromUtf8 (asBytes s) = some s :=
  fromUtf8Loop_asBytes s _ (length_le_asBytes s)

theorem asBytes_injective {s t : Str} (h : asBytes s = asBytes t) : s = t :=
  Option.some.inj (by rw [← fromUtf8_asBytes s, h, fromUtf8_asBytes])

theorem firstChar_eq (b : Bytes) (c : Char) (h : firstChar b = some c) :
    b = String.utf8EncodeChar c ++ b.drop c.utf8Size := by
  obtain ⟨l, hl⟩ := ByteArray.exists_of_utf8DecodeChar?_eq_some h
  have hb : b = String.utf8EncodeChar c ++ l.data.toList := by
    have := congrArg (fun x => x.data.toList) hl
    simpa using this
  have hdrop : b.drop c.utf8Size = l.data.toList := by
    conv_lhs => rw [hb]
    rw [← String.length_utf8EncodeChar c, List.drop_left]
  rw [hdrop]
  exact hb

theorem asBytes_fromUtf8Loop (fuel : Nat) (b : Bytes) (s : Str) (h : fromUtf8Loop fuel b = some s) :
    asBytes s = b := by
  induction fuel generalizing b s with
  | zero =>
    cases b with
    | nil => simp only [fromUtf8Loop, Option.some.injEq] at h; subst h; rfl
    | cons x xs => simp [fromUtf8Loop] at h
  | succ n ih =>
    cases b with
    | nil => simp only [fromUtf8Loop, Option.some.injEq] at h; subst h; rfl
    | cons x xs =>
      rw [fromUtf8Loop] at h
      cases hc : firstChar (x :: xs) with
      | none => rw [hc] at h; simp at h
      | some c =>
        rw [hc] at h
        simp only [Option.map_eq_some_iff] at h
        obtain ⟨t, ht, rfl⟩ := h
        have hcons : asBytes (c :: t) = String.utf8EncodeChar c ++ asBytes t := rfl
        rw [hcons, ih _ _ ht]
        exact (firstChar_eq _ _ hc).symm

theorem asBytes_of_fromUtf8 (b : Bytes) (s : Str) (h : fromUtf8 b = some s) : asBytes s = b :=
  asBytes_fromUtf8Loop _ _ _ h

theorem fromUtf8LossyLoop_asBytes (s : Str) (fuel : Nat) (h : s.length ≤ fuel) :
    fromUtf8LossyLoop fuel (asBytes s) = s := by
  induction s generalizing fuel with
  | nil => cases fuel <;> rfl
  | cons c cs ih =>
    obtain ⟨n, rfl⟩ : ∃ n, fuel = n + 1 := ⟨fuel - 1, by simp at h; omega⟩
    have hcons : asBytes (c :: cs) = String.utf8EncodeChar c ++ asBytes cs := rfl
    obtain ⟨b, bs, hb⟩ := List.exists_cons_of_ne_nil (l := asBytes (c :: cs))
      (by rw [hcons]; simp)
    have hfirst : firstChar (b :: bs) = some c := by rw [← hb, hcons, firstChar_encode]
    have hdrop : (b :: bs).drop c.utf8Size = asBytes cs := by
      rw [← hb, hcons, ← String.length_utf8EncodeChar c, List.drop_left]
    rw [hb, fromUtf8LossyLoop, hfirst]
    simp only [hdrop]
    rw [ih n (by simp at h; omega)]

theorem fromUtf8Lossy_asBytes (s : Str) : fromUtf8Lossy (asBytes s) = s :=
  fromUtf8LossyLoop_asBytes s _ (length_le_asBytes s)

/-! ## Trimming and splitting -/

/-- `str::trim_matches` of one character. -/
def trimMatches (c : Char) (s : Str) : Str := (s.dropWhile (· == c)).rdropWhile (· == c)

/-- The characters with the Unicode property `White_Space`, which `str::trim` drops. -/
def isWhitespace (c : Char) : Bool :=
  (9 ≤ c.toNat && c.toNat ≤ 13) || c.toNat == 0x20 || c.toNat == 0x85 || c.toNat == 0xA0 ||
  c.toNat == 0x1680 || (0x2000 ≤ c.toNat && c.toNat ≤ 0x200A) || c.toNat == 0x2028 ||
  c.toNat == 0x2029 || c.toNat == 0x202F || c.toNat == 0x205F || c.toNat == 0x3000

def trim (s : Str) : Str := (s.dropWhile isWhitespace).rdropWhile isWhitespace

/-- Text without whitespace is not trimmed. -/
theorem trim_eq_self (s : Str) (h : ∀ c ∈ s, isWhitespace c = false) : trim s = s := by
  have hr : s.rdropWhile isWhitespace = s := by
    rw [List.rdropWhile_eq_self_iff]
    intro hne hlast
    rw [h _ (List.getLast_mem hne)] at hlast
    exact absurd hlast (by simp)
  cases s with
  | nil => rfl
  | cons c cs =>
    rw [trim, List.dropWhile_cons_of_neg (by simp [h c List.mem_cons_self]), hr]

/-- A line comes back without the newline it was written with. -/
theorem trim_newline (s : Str) (h : ∀ c ∈ s, isWhitespace c = false) : trim (s ++ ['\n']) = s := by
  have hnl : isWhitespace '\n' = true := by decide
  cases s with
  | nil => decide
  | cons c cs =>
    have hc : ¬ isWhitespace c = true := by simp [h c List.mem_cons_self]
    have hself := trim_eq_self (c :: cs) h
    rw [trim, List.dropWhile_cons_of_neg hc] at hself
    rw [trim, List.cons_append, List.dropWhile_cons_of_neg hc, ← List.cons_append,
      List.rdropWhile_concat_pos _ _ _ hnl, hself]

/-- `str::trim_start_matches` of a prefix that is not empty: every copy of it goes. -/
def trimStartMatches (p : Str) : Nat → Str → Str
  | 0, s => s
  | fuel + 1, s => if p.isPrefixOf s then trimStartMatches p fuel (s.drop p.length) else s

/-- `str::lines`. -/
def lines (s : Str) : List Str :=
  let parts := s.splitOn '\n'
  let parts := if parts.getLast? = some [] then parts.dropLast else parts
  parts.map fun l => if l.getLast? = some '\r' then l.dropLast else l

theorem lines_cons (s t : Str) (h : '\n' ∉ s) (hcr : s.getLast? ≠ some '\r') :
    lines (s ++ '\n' :: t) = s :: lines t := by
  have hne : t.splitOn '\n' ≠ [] := List.splitOn_ne_nil _ _
  obtain ⟨a, l, hl⟩ := List.exists_cons_of_ne_nil hne
  simp only [lines, List.splitOn_append_cons_self_of_not_mem h, hl, List.getLast?_cons_cons,
    List.dropLast_cons_cons]
  split_ifs <;> simp [hcr]

/-- `str::split_whitespace`. -/
def splitWhitespace (s : Str) : List Str := (s.splitOnP isWhitespace).filter (· ≠ [])

/-- The non-empty pieces between slashes. -/
def components (path : Str) : List Str := (path.splitOn '/').filter (· ≠ [])

/-- The parts of a text have the characters of the text, without the one they are split at. -/
theorem mem_splitOn {a : Char} {s part : Str} (h : part ∈ s.splitOn a) : a ∉ part ∧ ∀ c ∈ part, c ∈ s := by
  induction s generalizing part with
  | nil =>
    rw [List.splitOn_nil, List.mem_singleton] at h
    subst h
    simp
  | cons x xs ih =>
    rw [List.splitOn_cons_eq_if_modifyHead] at h
    obtain ⟨p, ps, hps⟩ := List.exists_cons_of_ne_nil (List.splitOn_ne_nil a xs)
    split_ifs at h with hx
    · rcases List.mem_cons.mp h with rfl | h
      · simp
      · exact ⟨(ih h).1, fun c hc => List.mem_cons_of_mem _ ((ih h).2 c hc)⟩
    · rw [hps, List.modifyHead_cons] at h
      rcases List.mem_cons.mp h with rfl | h
      · obtain ⟨hnot, hmem⟩ := ih (hps ▸ List.mem_cons_self)
        have hne : a ≠ x := fun heq => hx (beq_iff_eq.mpr heq.symm)
        refine ⟨fun ha => ?_, fun c hc => ?_⟩
        · rcases List.mem_cons.mp ha with rfl | ha
          · exact hne rfl
          · exact hnot ha
        · rcases List.mem_cons.mp hc with rfl | hc
          · exact List.mem_cons_self
          · exact List.mem_cons_of_mem _ (hmem c hc)
      · obtain ⟨hnot, hmem⟩ := ih (hps ▸ List.mem_cons_of_mem _ h)
        exact ⟨hnot, fun c hc => List.mem_cons_of_mem _ (hmem c hc)⟩

theorem mem_components {path part : Str} (h : part ∈ components path) :
    part ≠ [] ∧ '/' ∉ part ∧ ∀ c ∈ part, c ∈ path := by
  obtain ⟨hpart, hne⟩ := List.mem_filter.mp h
  exact ⟨by simpa using hne, mem_splitOn hpart⟩
theorem components_nil : components [] = [] := by decide

theorem components_slash (s : Str) : components ('/' :: s) = components s := by
  have h := List.splitOn_append_cons_self ([] : Str) s (a := '/')
  simp only [List.nil_append] at h
  simp [components, h]

theorem components_append_slash (s t : Str) :
    components (s ++ '/' :: t) = components s ++ components t := by
  simp [components, List.splitOn_append_cons_self]

theorem components_dropWhile (s : Str) :
    components (s.dropWhile (· == '/')) = components s := by
  induction s with
  | nil => rfl
  | cons c cs ih =>
    by_cases hc : c = '/'
    · subst hc; rw [List.dropWhile_cons_of_pos (by simp), ih, components_slash]
    · rw [List.dropWhile_cons_of_neg (by simpa using hc)]

theorem components_rdropWhile (s : Str) :
    components (s.rdropWhile (· == '/')) = components s := by
  induction s using List.reverseRecOn with
  | nil => rfl
  | append_singleton cs c ih =>
    by_cases hc : c = '/'
    · subst hc
      rw [List.rdropWhile_concat_pos _ _ _ (by simp), ih, components_append_slash]
      simp [components_nil]
    · rw [List.rdropWhile_concat_neg _ _ _ (by simpa using hc)]

/-- Slashes at the ends do not change the pieces of a path. -/
theorem components_trimMatches (s : Str) : components (trimMatches '/' s) = components s := by
  rw [trimMatches, components_rdropWhile, components_dropWhile]

/-! ## Hexadecimal -/

def hexDigit (n : Nat) : Char := if n < 10 then Char.ofNat (48 + n) else Char.ofNat (87 + n)

def hexValue (c : Char) : Option Nat :=
  if '0' ≤ c ∧ c ≤ '9' then some (c.toNat - 48)
  else if 'a' ≤ c ∧ c ≤ 'f' then some (c.toNat - 87)
  else if 'A' ≤ c ∧ c ≤ 'F' then some (c.toNat - 55)
  else none

/-- `hex::encode`. -/
def hexEncode (b : Bytes) : Str :=
  b.flatMap fun x => [hexDigit (x.toNat / 16), hexDigit (x.toNat % 16)]

/-- `hex::decode`. -/
def hexDecode : Str → Option Bytes
  | [] => some []
  | [_] => none
  | a :: b :: rest =>
    match hexValue a, hexValue b, hexDecode rest with
    | some x, some y, some bs => some (UInt8.ofNat (16 * x + y) :: bs)
    | _, _, _ => none

theorem hexValue_hexDigit : ∀ n, n < 16 → hexValue (hexDigit n) = some n := by decide

theorem hexDecode_hexEncode (b : Bytes) : hexDecode (hexEncode b) = some b := by
  induction b with
  | nil => rfl
  | cons x xs ih =>
    have hx : x.toNat < 256 := x.toNat_lt
    have hcons : hexEncode (x :: xs) =
        hexDigit (x.toNat / 16) :: hexDigit (x.toNat % 16) :: hexEncode xs := rfl
    rw [hcons, hexDecode, hexValue_hexDigit _ (by omega), hexValue_hexDigit _ (by omega), ih]
    simp only [Option.some.injEq, List.cons.injEq, and_true]
    rw [Nat.div_add_mod x.toNat 16, UInt8.ofNat_toNat]

theorem hexDigit_ascii : ∀ n, n < 16 →
    isWhitespace (hexDigit n) = false ∧ (String.utf8EncodeChar (hexDigit n)).length = 1 := by decide

theorem hexEncode_injective {a b : Bytes} (h : hexEncode a = hexEncode b) : a = b :=
  Option.some.inj (by rw [← hexDecode_hexEncode a, h, hexDecode_hexEncode])

theorem hexEncode_mem (b : Bytes) (c : Char) (h : c ∈ hexEncode b) : ∃ n, n < 16 ∧ c = hexDigit n := by
  simp only [hexEncode, List.mem_flatMap, List.mem_cons, List.not_mem_nil, or_false] at h
  obtain ⟨x, -, rfl | rfl⟩ := h
  · exact ⟨_, by have := x.toNat_lt; omega, rfl⟩
  · exact ⟨_, Nat.mod_lt _ (by omega), rfl⟩

theorem asBytes_length_of_ascii (s : Str) (h : ∀ c ∈ s, (String.utf8EncodeChar c).length = 1) :
    (asBytes s).length = s.length := by
  induction s with
  | nil => rfl
  | cons c cs ih =>
    have hcons : asBytes (c :: cs) = String.utf8EncodeChar c ++ asBytes cs := rfl
    rw [hcons, List.length_append, h c List.mem_cons_self,
      ih fun x hx => h x (List.mem_cons_of_mem _ hx), List.length_cons]
    omega

theorem hexEncode_length (b : Bytes) : (hexEncode b).length = 2 * b.length := by
  induction b with
  | nil => rfl
  | cons x xs ih => simp only [hexEncode, List.flatMap_cons, List.length_append] at ih ⊢; simp [ih]; omega

end GitNfs
