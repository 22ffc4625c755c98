import GitNfs.Hash

/-! # Git objects and their names -/

namespace GitNfs

/-- What the errors of the server are about. -/
inductive Error where
  | dirNotFound (id : Nat)
  | notADirectory (id : Nat)
  | childNotFound (name : Str) (dirId : Nat)
  | nodeNotFound (id : Nat)
  | sourceNotFound (name : Str)
  | emptyPath
  | missingSpace
  | missingNull
  | invalidUtf8
  | truncatedSha
  | invalidHex (sha : Str)
  | largePackOffset
  | headUnreadable
  | unresolvedRef (name : Str)
  | invalidHead (head : Str)
  | stagedFile (id : Nat)
  | sealed (seq : Nat)
  | io
  deriving DecidableEq, Repr

inductive ObjectType where
  | commit
  | tree
  | blob
  | tag
  | ofsDelta
  | refDelta
  deriving DecidableEq, Repr

namespace ObjectType

/-- `obj_type as u8`. -/
def toU8 : ObjectType → UInt8
  | commit => 1
  | tree => 2
  | blob => 3
  | tag => 4
  | ofsDelta => 6
  | refDelta => 7

def typeStr : ObjectType → Str
  | commit => "commit".toList
  | tree => "tree".toList
  | blob => "blob".toList
  | tag => "tag".toList
  | _ => "unknown".toList

end ObjectType

/-- A number as `format!` prints it. -/
def decimal (n : Nat) : Str := Nat.toDigits 10 n

def objectHeader (t : ObjectType) (len : Nat) : Bytes :=
  asBytes (t.typeStr ++ ' ' :: decimal len) ++ [0]

def computeGitSha1 (t : ObjectType) (data : Bytes) : Str :=
  hexEncode (sha1 (objectHeader t data.length ++ data))

structure GitObjectToPack where
  oid : Str
  objType : ObjectType
  data : Bytes
  deriving DecidableEq, Repr

theorem computeGitSha1_length (t : ObjectType) (data : Bytes) :
    (computeGitSha1 t data).length = 40 := by
  rw [computeGitSha1, hexEncode_length, sha1_length]

/-- A name that `hex::encode` printed from twenty bytes. -/
def IsOid (s : Str) : Prop := ∃ b : Bytes, b.length = 20 ∧ s = hexEncode b

theorem computeGitSha1_isOid (t : ObjectType) (data : Bytes) :
    IsOid (computeGitSha1 t data) := ⟨_, sha1_length _, rfl⟩

instance (s : Str) : Decidable (IsOid s) :=
  decidable_of_iff ((hexDecode s).any fun b => b.length = 20 ∧ hexEncode b = s) <| by
    simp only [Option.any_eq_true_iff_get, decide_eq_true_eq]
    constructor
    · rintro ⟨h, hlen, henc⟩
      exact ⟨_, hlen, henc.symm⟩
    · rintro ⟨b, hlen, rfl⟩
      simp [hexDecode_hexEncode, hlen]

theorem IsOid.not_whitespace {s : Str} (h : IsOid s) : ∀ c ∈ s, isWhitespace c = false := by
  obtain ⟨b, -, rfl⟩ := h
  intro c hc
  obtain ⟨n, hn, rfl⟩ := hexEncode_mem b c hc
  exact (hexDigit_ascii n hn).1

/-- What a ref that holds an id is read as. -/
theorem IsOid.line {s : Str} (h : IsOid s) :
    trim (fromUtf8Lossy (asBytes (s ++ ['\n']))) = s ∧ (asBytes s).length = 40 := by
  refine ⟨by rw [fromUtf8Lossy_asBytes, trim_newline _ h.not_whitespace], ?_⟩
  obtain ⟨b, hb, rfl⟩ := h
  rw [asBytes_length_of_ascii, hexEncode_length, hb]
  intro c hc
  obtain ⟨n, hn, rfl⟩ := hexEncode_mem b c hc
  exact (hexDigit_ascii n hn).2

theorem IsOid.ne_nil {s : Str} (h : IsOid s) : s ≠ [] := by
  obtain ⟨b, hb, rfl⟩ := h
  intro h0
  have := hexEncode_length b
  rw [h0, hb] at this
  simp at this

end GitNfs
