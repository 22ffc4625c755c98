import GitNfs.Lib.Framing
import GitNfs.Wal.Proto

/-! # The bytes of a log

Every entry is written behind its length. `encode` and `decode` are those of `prost` for an entry.
-/

namespace GitNfs

namespace WalEntry

variable (encode : WalEntry → Bytes) (decode : Bytes → Option WalEntry)

def encodeFramed (entry : WalEntry) : Bytes :=
  u32ToBeBytes (UInt32.ofNat (encode entry).length) ++ encode entry

/-- One round of the loop of `decode_all_framed`: the entry and how far it reaches. A frame that is not
all there stops the loop, and so does one that cannot be decoded. -/
def nextFrame (data : Bytes) : Option (WalEntry × Nat) :=
  if data.length < 4 then none
  else
    let msgLen := fromBeBytes (data.take 4)
    if data.length < 4 + msgLen then none
    else (decode ((data.drop 4).take msgLen)).map fun entry => (entry, 4 + msgLen)

theorem nextFrame_cases {decode : Bytes → Option WalEntry} {data : Bytes} {entry : WalEntry} {n : Nat}
    (h : nextFrame decode data = some (entry, n)) :
    4 ≤ data.length ∧ n = 4 + fromBeBytes (data.take 4) ∧ n ≤ data.length ∧
      decode ((data.drop 4).take (fromBeBytes (data.take 4))) = some entry := by
  unfold nextFrame at h
  simp only at h
  split_ifs at h with hshort hcut
  obtain ⟨e, he, heq⟩ := Option.map_eq_some_iff.mp h
  simp only [Prod.mk.injEq] at heq
  obtain ⟨rfl, rfl⟩ := heq
  exact ⟨by omega, rfl, by omega, he⟩

/-- The reader that `decode_all_framed` scans a log with. -/
def frameReader : Framing.Reader WalEntry UInt8 where
  next := nextFrame decode
  next_size := by
    intro data entry n h
    obtain ⟨-, hn, hle, -⟩ := nextFrame_cases h
    omega
  next_append := by
    intro data more entry n h
    obtain ⟨hshort, hn, hle, hdecode⟩ := nextFrame_cases h
    have htake : (data ++ more).take 4 = data.take 4 := List.take_append_of_le_length hshort
    have hbody : ((data ++ more).drop 4).take (fromBeBytes (data.take 4)) =
        (data.drop 4).take (fromBeBytes (data.take 4)) := by
      rw [List.drop_append_of_le_length hshort,
        List.take_append_of_le_length (by rw [List.length_drop]; omega)]
    unfold nextFrame
    simp only [htake, hbody, hdecode, List.length_append]
    rw [if_neg (by omega), if_neg (by omega), hn, Option.map_some]

/-- The entries that are whole, and the bytes they take. -/
def decodeAllFramed (data : Bytes) : List WalEntry × Nat := (frameReader decode).scan data

variable {encode decode}

theorem encodeFramed_length (entry : WalEntry) :
    (encodeFramed encode entry).length = 4 + (encode entry).length := by
  rw [encodeFramed, List.length_append, u32ToBeBytes_length]

theorem fromBeBytes_encodeFramed {entry : WalEntry} (hlen : (encode entry).length < 2 ^ 32) :
    fromBeBytes ((encodeFramed encode entry).take 4) = (encode entry).length := by
  rw [encodeFramed, List.take_left' (u32ToBeBytes_length _), fromBeBytes_u32,
    UInt32.toNat_ofNat_of_lt' hlen]

/-- What is framed is read back, and no beginning of it is read as anything. -/
theorem encodeFramed_frames {entry : WalEntry} (hprost : decode (encode entry) = some entry)
    (hlen : (encode entry).length < 2 ^ 32) :
    (frameReader decode).Frames (encodeFramed encode entry) entry := by
  have hfull : (encodeFramed encode entry).length = 4 + (encode entry).length := encodeFramed_length entry
  refine ⟨?_, fun k hk => ?_⟩
  · have hbody : (encodeFramed encode entry).drop 4 = encode entry := List.drop_left' (u32ToBeBytes_length _)
    simp only [frameReader, nextFrame, fromBeBytes_encodeFramed hlen, hfull, hbody, List.take_length, hprost]
    rw [if_neg (by omega), if_neg (by omega), Option.map_some]
  · have hk' : ((encodeFramed encode entry).take k).length = k := by rw [List.length_take]; omega
    simp only [frameReader, nextFrame, hk']
    split_ifs with hshort hcut
    · rfl
    · rfl
    · rw [List.take_take, Nat.min_eq_left (by omega), fromBeBytes_encodeFramed hlen] at hcut
      omega

end WalEntry

open WalEntry in
/-- A log that is cut off anywhere is read up to the last whole entry, and a log that is read to its end
is read alike whatever is appended to it. -/
theorem framing_survives_truncation (encode : WalEntry → Bytes) (decode : Bytes → Option WalEntry)
    (entries : List WalEntry) (hprost : ∀ e ∈ entries, decode (encode e) = some e)
    (hlen : ∀ e ∈ entries, (encode e).length < 2 ^ 32) :
    (∀ k, ∃ n ≤ entries.length,
      decodeAllFramed decode ((entries.flatMap (encodeFramed encode)).take k) =
        (entries.take n, ((entries.take n).flatMap (encodeFramed encode)).length) ∧
      ((entries.take n).flatMap (encodeFramed encode)).length ≤ k ∧
      ∀ m ≤ entries.length, ((entries.take m).flatMap (encodeFramed encode)).length ≤ k → m ≤ n) ∧
    (∀ a b, (decodeAllFramed decode a).2 = a.length →
      decodeAllFramed decode (a ++ b) =
        ((decodeAllFramed decode a).1 ++ (decodeAllFramed decode b).1,
          (decodeAllFramed decode a).2 + (decodeAllFramed decode b).2)) := by
  refine ⟨fun k => ?_, fun a b h => Framing.Reader.scan_append a b h⟩
  exact Framing.Reader.scan_take entries (fun e he => encodeFramed_frames (hprost e he) (hlen e he)) k

/-! ## Two small entries -/

namespace WalEntry

/-- `prost` on entries that hold a sequence number up to 127 and nothing else. -/
def encodeSeq (e : WalEntry) : Bytes := if e.seq = 0 then [] else [8, UInt8.ofNat e.seq]

def decodeSeq : Bytes → Option WalEntry
  | [] => some ⟨0, 0, none⟩
  | [8, n] => some ⟨n.toNat, 0, none⟩
  | _ => none

end WalEntry

open WalEntry in
/-- An empty message and one of two bytes, cut off inside the second. -/
theorem framing_survives_truncation_two :
    decodeAllFramed decodeSeq (([⟨0, 0, none⟩, ⟨5, 0, none⟩].flatMap (encodeFramed encodeSeq)).take 9) =
      ([⟨0, 0, none⟩], 4) := by
  obtain ⟨n, hn, hdecode, hle, hmax⟩ :=
    (framing_survives_truncation encodeSeq decodeSeq [⟨0, 0, none⟩, ⟨5, 0, none⟩] (by decide) (by decide)).1 9
  have hone : 1 ≤ n := hmax 1 (by decide) (by decide)
  have hnot : n ≠ 2 := by
    rintro rfl
    exact absurd hle (by decide)
  obtain rfl : n = 1 := by
    simp only [List.length_cons, List.length_nil] at hn
    omega
  exact hdecode

end GitNfs
