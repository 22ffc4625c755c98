import GitNfs.Text

/-! # SHA-1 and CRC-32

What the crates `sha1` and `flate2` compute, written out so that it can be run.
-/

namespace GitNfs

def u32ToBeBytes (x : UInt32) : Bytes :=
  [(x >>> 24).toUInt8, (x >>> 16).toUInt8, (x >>> 8).toUInt8, x.toUInt8]

theorem u32ToBeBytes_length (x : UInt32) : (u32ToBeBytes x).length = 4 := rfl

/-- `from_be_bytes`, of any width. -/
def fromBeBytes (b : Bytes) : Nat := b.foldl (fun n b => n * 256 + b.toNat) 0

theorem fromBeBytes_u32 (x : UInt32) : fromBeBytes (u32ToBeBytes x) = x.toNat := by
  have hx : x.toNat < 2 ^ 32 := x.toNat_lt
  simp only [u32ToBeBytes, fromBeBytes, List.foldl_cons, List.foldl_nil, UInt32.toNat_toUInt8,
    UInt32.toNat_shiftRight, Nat.shiftRight_eq_div_pow, UInt32.reduceToNat, Nat.reduceMod,
    Nat.reducePow]
  omega

/-! ## SHA-1 -/

structure Sha1State where
  a : UInt32
  b : UInt32
  c : UInt32
  d : UInt32
  e : UInt32

def rotl (x n : UInt32) : UInt32 := (x <<< n) ||| (x >>> (32 - n))

/-- The function and the constant of round `t`. -/
def sha1Mix (t : Nat) (b c d : UInt32) : UInt32 :=
  if t < 20 then ((b &&& c) ||| (~~~b &&& d)) + 0x5A827999
  else if t < 40 then (b ^^^ c ^^^ d) + 0x6ED9EBA1
  else if t < 60 then ((b &&& c) ||| (b &&& d) ||| (c &&& d)) + 0x8F1BBCDC
  else (b ^^^ c ^^^ d) + 0xCA62C1D6

/-- `n` rounds from round `t` on; `ws` holds the sixteen words that the message schedule looks back at. -/
def sha1Rounds : Nat → Nat → List UInt32 → Sha1State → Sha1State
  | 0, _, _, s => s
  | _ + 1, _, [], s => s
  | n + 1, t, w :: ws, s =>
    let next := rotl (ws.getD 12 0 ^^^ ws.getD 7 0 ^^^ ws.getD 1 0 ^^^ w) 1
    sha1Rounds n (t + 1) (ws ++ [next])
      ⟨rotl s.a 5 + sha1Mix t s.b s.c s.d + s.e + w, s.a, rotl s.b 30, s.c, s.d⟩

def sha1Block (s : Sha1State) (ws : List UInt32) : Sha1State :=
  let r := sha1Rounds 80 0 ws s
  ⟨s.a + r.a, s.b + r.b, s.c + r.c, s.d + r.d, s.e + r.e⟩

def sha1Blocks : Nat → List UInt32 → Sha1State → Sha1State
  | 0, _, s => s
  | n + 1, ws, s => sha1Blocks n (ws.drop 16) (sha1Block s (ws.take 16))

def beWords : Bytes → List UInt32
  | a :: b :: c :: d :: rest =>
    (a.toUInt32 <<< 24 ||| b.toUInt32 <<< 16 ||| c.toUInt32 <<< 8 ||| d.toUInt32) :: beWords rest
  | _ => []

def sha1Pad (b : Bytes) : Bytes :=
  b ++ 0x80 :: List.replicate ((119 - b.length % 64) % 64) 0 ++
    u32ToBeBytes (UInt32.ofNat (8 * b.length / 2 ^ 32)) ++ u32ToBeBytes (UInt32.ofNat (8 * b.length))

def sha1 (b : Bytes) : Bytes :=
  let ws := beWords (sha1Pad b)
  let s := sha1Blocks (ws.length / 16) ws ⟨0x67452301, 0xEFCDAB89, 0x98BADCFE, 0x10325476, 0xC3D2E1F0⟩
  u32ToBeBytes s.a ++ u32ToBeBytes s.b ++ u32ToBeBytes s.c ++ u32ToBeBytes s.d ++ u32ToBeBytes s.e

theorem sha1_length (b : Bytes) : (sha1 b).length = 20 := rfl

example : hexEncode (sha1 (asBytes "abc".toList)) =
    "a9993e364706816aba3e25717850c26c9cd0d89d".toList := by decide +kernel

/-! ## CRC-32 -/

def crcBit (r : UInt32) : UInt32 :=
  if r &&& 1 = 1 then (r >>> 1) ^^^ 0xEDB88320 else r >>> 1

def crcByte (r : UInt32) (b : UInt8) : UInt32 := crcBit^[8] (r ^^^ b.toUInt32)

def crc32 (b : Bytes) : UInt32 := ~~~(b.foldl crcByte 0xFFFFFFFF)

example : crc32 (asBytes "123456789".toList) = 0xCBF43926 := by decide +kernel

end GitNfs
