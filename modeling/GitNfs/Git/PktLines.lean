import GitNfs.Git.Protocol

/-! # Pkt-lines, written and read

Both readers take a response packet by packet, wherever it stands in the response. So what they return follows
from the list of packets.
-/

namespace GitNfs

/-! ## Writing -/

/-- `format!("{n:04x}")`. -/
def hex4 (n : Nat) : Str := (Nat.toDigits 16 n).leftpad 4 '0'

def encodePktLine (line : Str) : Bytes :=
  let payload := asBytes line ++ [10]
  let totalLen := payload.length + 4
  asBytes (hex4 totalLen) ++ payload

def flushPkt : Bytes := asBytes "0000".toList

def delimPkt : Bytes := asBytes "0001".toList

/-- A packet of a response. -/
inductive Packet where
  | flush
  | delim
  | line (payload : Bytes)
  deriving DecidableEq, Repr

namespace Packet

def bytes : Packet → Bytes
  | flush => flushPkt
  | delim => delimPkt
  | line payload => asBytes (hex4 (payload.length + 4)) ++ payload

/-- The length of the packet has four digits. -/
def Fits : Packet → Prop
  | line payload => payload.length + 4 < 16 ^ 4
  | _ => True

/-- What a reader does with a packet. -/
def read {α : Type} (line : α → Bytes → Except PktError α) (acc : α) : Packet → Except PktError α
  | .line payload => line acc payload
  | _ => .ok acc

end Packet

def stream (packets : List Packet) : Bytes := packets.flatMap Packet.bytes

/-! ## The length of a line -/

theorem hexDigit_toDigits {n : Nat} (h : n < 16) : Nat.toDigits 16 n = [hexDigit n] := by
  have hchar : ∀ n, n < 16 → n.digitChar = hexDigit n := by decide
  rw [Nat.toDigits_of_lt_base h, hchar n h]

/-- One digit more. -/
theorem toDigits_hex {n : Nat} (h : 16 ≤ n) : Nat.toDigits 16 n = Nat.toDigits 16 (n / 16) ++ [hexDigit (n % 16)] := by
  have hlast := Nat.toDigits_append_toDigits (by omega : 1 < 16) (by omega : 0 < n / 16)
    (Nat.mod_lt n (by omega : 0 < 16))
  rw [Nat.div_add_mod] at hlast
  rw [← hlast, hexDigit_toDigits (Nat.mod_lt _ (by omega))]

theorem hex4_eq {n : Nat} (h : n < 16 ^ 4) :
    hex4 n = [hexDigit (n / 4096), hexDigit (n / 256 % 16), hexDigit (n / 16 % 16), hexDigit (n % 16)] := by
  unfold hex4
  by_cases h₁ : n < 16
  · have hzeros : n / 4096 = 0 ∧ n / 256 % 16 = 0 ∧ n / 16 % 16 = 0 ∧ n % 16 = n := by omega
    rw [hexDigit_toDigits h₁, hzeros.1, hzeros.2.1, hzeros.2.2.1, hzeros.2.2.2]
    rfl
  rw [toDigits_hex (by omega)]
  by_cases h₂ : n / 16 < 16
  · have hzeros : n / 4096 = 0 ∧ n / 256 % 16 = 0 ∧ n / 16 % 16 = n / 16 := by omega
    rw [hexDigit_toDigits h₂, hzeros.1, hzeros.2.1, hzeros.2.2]
    rfl
  rw [toDigits_hex (by omega), Nat.div_div_eq_div_mul]
  by_cases h₃ : n / 256 < 16
  · have hzeros : n / 4096 = 0 ∧ n / 256 % 16 = n / 256 := by omega
    rw [hexDigit_toDigits h₃, hzeros.1, hzeros.2]
    rfl
  rw [toDigits_hex (by omega), Nat.div_div_eq_div_mul, hexDigit_toDigits (by omega)]
  rfl

theorem hexDigits_hexDigit {n : Nat} (h : n < 16) (cs : Str) (acc : Nat) :
    hexDigits (hexDigit n :: cs) acc = hexDigits cs (16 * acc + n) := by
  rw [hexDigits, hexValue_hexDigit n h]

/-- A length of four digits is read as it was written. -/
theorem fromStrRadix16_hex4 {n : Nat} (h : n < 16 ^ 4) : fromStrRadix16 (hex4 n) = some n := by
  have hplus : ∀ n, n < 16 → hexDigit n ≠ '+' := by decide
  rw [hex4_eq h]
  unfold fromStrRadix16
  split
  · rename_i heq
    exact absurd (List.cons.inj heq).1 (hplus _ (by omega))
  · rw [if_neg (List.cons_ne_nil _ _), hexDigits_hexDigit (by omega), hexDigits_hexDigit (by omega),
      hexDigits_hexDigit (by omega), hexDigits_hexDigit (by omega), hexDigits]
    simp only
    rw [if_pos (by omega)]
    congr 1
    omega

theorem length_hex4 {n : Nat} (h : n < 16 ^ 4) : (asBytes (hex4 n)).length = 4 := by
  rw [asBytes_length_of_ascii, hex4_eq h]
  · rfl
  · rw [hex4_eq h]
    intro c hc
    simp only [List.mem_cons, List.not_mem_nil, or_false] at hc
    rcases hc with rfl | rfl | rfl | rfl <;> exact (hexDigit_ascii _ (by omega)).2

/-! ## One packet, wherever it stands -/

/-- The four characters at a position. -/
theorem header_read {n : Nat} (h : n < 16 ^ 4) (pre rest : Bytes) :
    ¬ (pre ++ (asBytes (hex4 n) ++ rest)).length < pre.length + 4 ∧
      fromUtf8 (((pre ++ (asBytes (hex4 n) ++ rest)).drop pre.length).take 4) = some (hex4 n) := by
  have hlen := length_hex4 h
  constructor
  · rw [List.length_append, List.length_append, hlen]
    omega
  · rw [List.drop_left, List.take_left' hlen, fromUtf8_asBytes]

theorem readPkt_special_packet {p : Packet} (hp : p = .flush ∨ p = .delim) (pre rest : Bytes) :
    readPkt (pre ++ (p.bytes ++ rest)) pre.length = .ok .special := by
  have hread (n : Nat) (hn : n = 0 ∨ n = 1) :
      readPkt (pre ++ (asBytes (hex4 n) ++ rest)) pre.length = .ok .special := by
    have hsmall : n < 16 ^ 4 := by omega
    obtain ⟨hlong, hutf8⟩ := header_read hsmall pre rest
    unfold readPkt
    rw [if_neg hlong, hutf8]
    simp only [fromStrRadix16_hex4 hsmall]
    rw [if_pos hn]
  rcases hp with rfl | rfl
  · exact hread 0 (.inl rfl)
  · exact hread 1 (.inr rfl)

theorem readPkt_line_packet {payload : Bytes} (h : payload.length + 4 < 16 ^ 4) (pre rest : Bytes) :
    readPkt (pre ++ ((Packet.line payload).bytes ++ rest)) pre.length =
      .ok (.line payload (pre.length + (payload.length + 4))) := by
  have hlen := length_hex4 h
  obtain ⟨hlong, hutf8⟩ := header_read h pre (payload ++ rest)
  have hslice : slice (pre ++ (asBytes (hex4 (payload.length + 4)) ++ (payload ++ rest))) (pre.length + 4)
      (pre.length + (payload.length + 4)) = some payload := by
    unfold slice
    rw [if_pos]
    · have hsize : pre.length + (payload.length + 4) - (pre.length + 4) = payload.length := by omega
      rw [← List.drop_drop, List.drop_left, List.drop_left' hlen, hsize, List.take_left]
    · simp only [List.length_append, hlen]
      omega
  unfold Packet.bytes readPkt
  rw [List.append_assoc, if_neg hlong, hutf8]
  simp only [fromStrRadix16_hex4 h]
  rw [if_neg (by omega), if_neg, hslice]
  simp only [List.length_append, hlen]
  omega

/-- A packet that is cut off inside: the reader is at the end, or asks for more than there is. -/
theorem readPkt_cut {p : Packet} (hp : p.Fits) (pre : Bytes) {n : Nat} (hn : n < p.bytes.length) :
    readPkt (pre ++ p.bytes.take n) pre.length = .ok .short ∨
      ∃ lineLen, readPkt (pre ++ p.bytes.take n) pre.length = .ok (.beyond lineLen) := by
  by_cases hshort : n < 4
  · left
    unfold readPkt
    rw [if_pos]
    rw [List.length_append, List.length_take]
    omega
  · right
    cases p with
    | flush => exact absurd hn hshort
    | delim => exact absurd hn hshort
    | line payload =>
      have hlen := length_hex4 hp
      unfold Packet.bytes at hn ⊢
      rw [List.length_append, hlen] at hn
      rw [List.take_append, hlen, List.take_of_length_le (by omega)]
      obtain ⟨hlong, hutf8⟩ := header_read hp pre (payload.take (n - 4))
      unfold readPkt
      rw [if_neg hlong, hutf8]
      simp only [fromStrRadix16_hex4 hp]
      rw [if_neg (by omega), if_pos]
      · exact ⟨_, rfl⟩
      · simp only [List.length_append, hlen, List.length_take]
        omega

/-! ## All packets -/

section

variable {α : Type} {beyond : Nat → Nat → α → Outcome PktError α} {line : α → Bytes → Except PktError α}

theorem Packet.length_bytes {p : Packet} (hp : p.Fits) : 4 ≤ p.bytes.length := by
  cases p with
  | flush => exact le_rfl
  | delim => exact le_rfl
  | line payload =>
    unfold Packet.bytes
    rw [List.length_append, length_hex4 hp]
    omega

theorem length_le_stream {packets : List Packet} (h : ∀ p ∈ packets, p.Fits) :
    packets.length ≤ (stream packets).length := by
  induction packets with
  | nil => exact le_rfl
  | cons p packets ih =>
    have hp := Packet.length_bytes (h p List.mem_cons_self)
    have hrest := ih fun q hq => h q (List.mem_cons_of_mem _ hq)
    unfold stream at hrest ⊢
    rw [List.flatMap_cons, List.length_append, List.length_cons]
    omega

variable (beyond line) in
/-- The loop takes one packet after the other, and goes on behind them. -/
theorem pktLoop_packets {packets : List Packet} (h : ∀ p ∈ packets, p.Fits) (pre rest : Bytes) (fuel : Nat) (acc : α) :
    pktLoop beyond line (pre ++ (stream packets ++ rest)) (fuel + packets.length) pre.length acc =
      match packets.foldlM (Packet.read line) acc with
      | .error e => some (.err e)
      | .ok acc => pktLoop beyond line (pre ++ (stream packets ++ rest)) fuel (pre ++ stream packets).length acc := by
  induction packets generalizing pre acc with
  | nil =>
    rw [List.foldlM_nil]
    simp only [stream, List.flatMap_nil, List.append_nil, List.nil_append, List.length_nil, Nat.add_zero]
    rfl
  | cons p packets ih =>
    have hp := h p List.mem_cons_self
    have hsize := Packet.length_bytes hp
    have hsplit : pre ++ (stream (p :: packets) ++ rest) = pre ++ (p.bytes ++ (stream packets ++ rest)) := by
      unfold stream
      rw [List.flatMap_cons, List.append_assoc]
    have hnext : pre ++ (p.bytes ++ (stream packets ++ rest)) = (pre ++ p.bytes) ++ (stream packets ++ rest) :=
      (List.append_assoc _ _ _).symm
    have hend : pre ++ stream (p :: packets) = (pre ++ p.bytes) ++ stream packets := by
      unfold stream
      rw [List.flatMap_cons, List.append_assoc]
    have hgo := ih (fun q hq => h q (List.mem_cons_of_mem _ hq)) (pre ++ p.bytes)
    rw [hsplit, hend, List.length_cons, ← Nat.add_assoc, List.foldlM_cons]
    rw [pktLoop]
    rw [if_neg (by simp only [List.length_append]; omega)]
    cases p with
    | flush =>
      rw [readPkt_special_packet (.inl rfl)]
      simp only [hnext]
      have hpos : pre.length + 4 = (pre ++ Packet.flush.bytes).length := by rw [List.length_append]; rfl
      rw [hpos]
      exact hgo acc
    | delim =>
      rw [readPkt_special_packet (.inr rfl)]
      simp only [hnext]
      have hpos : pre.length + 4 = (pre ++ Packet.delim.bytes).length := by rw [List.length_append]; rfl
      rw [hpos]
      exact hgo acc
    | line payload =>
      rw [readPkt_line_packet hp]
      simp only [hnext]
      have hpos : pre.length + (payload.length + 4) = (pre ++ (Packet.line payload).bytes).length := by
        rw [List.length_append, Packet.bytes, List.length_append, length_hex4 hp, Nat.add_comm payload.length 4]
      rw [hpos]
      cases hline : line acc payload with
      | error e =>
        have hread : Packet.read line acc (.line payload) = .error e := hline
        rw [hread]
        rfl
      | ok acc' =>
        have hread : Packet.read line acc (.line payload) = .ok acc' := hline
        rw [hread]
        exact hgo acc'

/-- A response of whole packets. -/
theorem pktLoop_stream {packets : List Packet} (h : ∀ p ∈ packets, p.Fits) {start : α} {acc : α}
    (hread : packets.foldlM (Packet.read line) start = .ok acc) :
    pktLoop beyond line (stream packets) (stream packets).length 0 start = some (.ok acc) := by
  have hfuel := length_le_stream h
  have hloop := pktLoop_packets beyond line h [] [] ((stream packets).length - packets.length) start
  rw [hread, Nat.sub_add_cancel hfuel, List.append_nil, List.nil_append, List.length_nil] at hloop
  rw [hloop]
  unfold pktLoop
  exact if_pos le_rfl

theorem pktLoop_stream_error {packets : List Packet} (h : ∀ p ∈ packets, p.Fits) {start : α} {e : PktError}
    (hread : packets.foldlM (Packet.read line) start = .error e) :
    pktLoop beyond line (stream packets) (stream packets).length 0 start = some (.err e) := by
  have hfuel := length_le_stream h
  have hloop := pktLoop_packets beyond line h [] [] ((stream packets).length - packets.length) start
  rw [hread, Nat.sub_add_cancel hfuel, List.append_nil, List.nil_append, List.length_nil] at hloop
  exact hloop

end

/-- Where a response is cut off, it is some of its packets and a part of the next one. -/
theorem stream_take (packets : List Packet) (n : Nat) :
    ∃ k, (stream packets).take n = stream (packets.take k) ∨
      ∃ p ∈ packets, ∃ m, m < p.bytes.length ∧ 0 < m ∧
        (stream packets).take n = stream (packets.take k) ++ p.bytes.take m := by
  induction packets generalizing n with
  | nil =>
    refine ⟨0, .inl ?_⟩
    unfold stream
    rw [List.flatMap_nil, List.take_nil, List.take_nil, List.flatMap_nil]
  | cons p packets ih =>
    have hsplit : stream (p :: packets) = p.bytes ++ stream packets := List.flatMap_cons
    by_cases hzero : n = 0
    · refine ⟨0, .inl ?_⟩
      rw [hzero, List.take_zero, List.take_zero]
      rfl
    by_cases hinside : n < p.bytes.length
    · refine ⟨0, .inr ⟨p, List.mem_cons_self, n, hinside, by omega, ?_⟩⟩
      rw [hsplit, List.take_append_of_le_length hinside.le]
      rfl
    · obtain ⟨k, hk⟩ := ih (n - p.bytes.length)
      have htake : (stream (p :: packets)).take n = p.bytes ++ (stream packets).take (n - p.bytes.length) := by
        rw [hsplit, List.take_append, List.take_of_length_le (by omega)]
      have hfirst : stream ((p :: packets).take (k + 1)) = p.bytes ++ stream (packets.take k) := by
        rw [List.take_succ_cons]
        exact List.flatMap_cons
      refine ⟨k + 1, ?_⟩
      rw [htake, hfirst]
      rcases hk with hk | ⟨q, hq, m, hm, hpos, hk⟩
      · left
        rw [hk]
      · right
        refine ⟨q, List.mem_cons_of_mem _ hq, m, hm, hpos, ?_⟩
        rw [hk, List.append_assoc]

/-! ## Lines -/

/-- A line, or a packet between lines. -/
inductive PktItem where
  | flush
  | delim
  | line (text : Str)
  deriving DecidableEq, Repr

namespace PktItem

def bytes : PktItem → Bytes
  | flush => flushPkt
  | delim => delimPkt
  | line text => encodePktLine text

def text? : PktItem → Option Str
  | line text => some text
  | _ => none

def packet : PktItem → Packet
  | flush => .flush
  | delim => .delim
  | line text => .line (asBytes text ++ [10])

theorem bytes_packet (item : PktItem) : item.packet.bytes = item.bytes := by
  cases item with
  | flush => rfl
  | delim => rfl
  | line text => rfl

/-- The line has no newline at its end, and fits in a packet. -/
def Fits : PktItem → Prop
  | line text => text.getLast? ≠ some '\n' ∧ (asBytes text).length ≤ 65530
  | _ => True

theorem Fits.packet {item : PktItem} (h : item.Fits) : item.packet.Fits := by
  cases item with
  | flush => trivial
  | delim => trivial
  | line text =>
    have hlen : (asBytes text).length ≤ 65530 := h.2
    have hsize : (asBytes text ++ [10]).length + 4 < 16 ^ 4 := by
      rw [List.length_append, List.length_singleton]
      omega
    exact hsize

end PktItem

theorem stream_items (items : List PktItem) : stream (items.map PktItem.packet) = items.flatMap PktItem.bytes := by
  unfold stream
  rw [List.flatMap_map]
  exact List.flatMap_congr fun item _ => item.bytes_packet

/-- The newline that the encoder puts behind a line is taken off again, and nothing else is. -/
theorem pushLine_encoded {text : Str} (h : text.getLast? ≠ some '\n') (lines : List Str) :
    pushLine lines (asBytes text ++ [10]) = .ok (lines ++ [text]) := by
  have hbytes : asBytes text ++ [10] = asBytes (text ++ ['\n']) := by
    unfold asBytes
    rw [List.flatMap_append]
    rfl
  have hself : text.rdropWhile (· == '\n') = text := by
    rw [List.rdropWhile_eq_self_iff]
    intro hne hlast
    rw [List.getLast?_eq_some_getLast hne] at h
    exact h (congrArg some (beq_iff_eq.mp hlast))
  unfold pushLine
  rw [hbytes, fromUtf8Lossy_asBytes, List.rdropWhile_concat_pos _ _ _ rfl, hself]

theorem read_items {items : List PktItem} (h : ∀ item ∈ items, item.Fits) (lines : List Str) :
    (items.map PktItem.packet).foldlM (Packet.read pushLine) lines =
      .ok (lines ++ items.filterMap PktItem.text?) := by
  induction items generalizing lines with
  | nil =>
    rw [List.filterMap_nil, List.append_nil]
    rfl
  | cons item items ih =>
    have hrest := fun lines => ih (fun other hother => h other (List.mem_cons_of_mem _ hother)) lines
    rw [List.map_cons, List.foldlM_cons]
    cases item with
    | flush => exact hrest lines
    | delim => exact hrest lines
    | line text =>
      have hread : Packet.read pushLine lines (PktItem.line text).packet = .ok (lines ++ [text]) :=
        pushLine_encoded (h _ List.mem_cons_self).1 lines
      have htext : (PktItem.line text :: items).filterMap PktItem.text? = text :: items.filterMap PktItem.text? := rfl
      rw [hread, htext, List.append_cons lines text (items.filterMap PktItem.text?)]
      exact hrest _

theorem parsePktLines_items {items : List PktItem} (h : ∀ item ∈ items, item.Fits) :
    parsePktLines (items.flatMap PktItem.bytes) = some (.ok (items.filterMap PktItem.text?)) := by
  have hfits : ∀ p ∈ items.map PktItem.packet, p.Fits := by
    intro p hp
    obtain ⟨item, hitem, rfl⟩ := List.mem_map.mp hp
    exact (h item hitem).packet
  unfold parsePktLines
  rw [← stream_items]
  exact pktLoop_stream hfits (read_items h [])

/-- Lines are read as they were encoded, and a response that is cut off anywhere gives the first of them. -/
theorem pkt_lines_round_trip (items : List PktItem) (h : ∀ item ∈ items, item.Fits) :
    parsePktLines (items.flatMap PktItem.bytes) = some (.ok (items.filterMap PktItem.text?)) ∧
    ∀ n, ∃ lines, lines <+: items.filterMap PktItem.text? ∧
      parsePktLines ((items.flatMap PktItem.bytes).take n) = some (.ok lines) := by
  have hfits : ∀ items' ⊆ items, ∀ p ∈ items'.map PktItem.packet, p.Fits := by
    intro items' hsub p hp
    obtain ⟨item, hitem, rfl⟩ := List.mem_map.mp hp
    exact (h item (hsub hitem)).packet
  have hread (k : Nat) : ((items.take k).map PktItem.packet).foldlM (Packet.read pushLine) [] =
      .ok ([] ++ (items.take k).filterMap PktItem.text?) :=
    read_items (fun item hitem => h item (List.mem_of_mem_take hitem)) []
  have hpart (k : Nat) := hfits (items.take k) (List.take_subset k items)
  constructor
  · exact parsePktLines_items h
  · intro n
    unfold parsePktLines
    obtain ⟨k, hk⟩ := stream_take (items.map PktItem.packet) n
    rw [← List.map_take] at hk
    refine ⟨(items.take k).filterMap PktItem.text?, (List.take_prefix k items).filterMap _, ?_⟩
    rw [← stream_items]
    rcases hk with hk | ⟨p, hp, m, hm, hpos, hk⟩ <;> rw [hk]
    · exact pktLoop_stream (hpart k) (hread k)
    · have hlen : 0 < (p.bytes.take m).length := by
        rw [List.length_take]
        omega
      have hcount := length_le_stream (hpart k)
      obtain ⟨fuel, hfuel⟩ : ∃ fuel, (stream ((items.take k).map PktItem.packet) ++ p.bytes.take m).length =
          (fuel + 1) + ((items.take k).map PktItem.packet).length := by
        refine ⟨(stream ((items.take k).map PktItem.packet) ++ p.bytes.take m).length -
          ((items.take k).map PktItem.packet).length - 1, ?_⟩
        rw [List.length_append]
        omega
      have hloop := pktLoop_packets (fun _ _ lines => .ok lines) pushLine (hpart k) []
        (p.bytes.take m) (fuel + 1) []
      rw [hread k, ← hfuel, List.nil_append, List.nil_append, List.length_nil] at hloop
      rw [hloop]
      simp only [List.nil_append]
      rw [pktLoop, if_neg (by rw [List.length_append]; omega)]
      rcases readPkt_cut (hfits items (List.Subset.refl items) p hp) (stream ((items.take k).map PktItem.packet)) hm with
        hshort | ⟨lineLen, hbeyond⟩
      · rw [hshort]
      · rw [hbeyond]

/-- Two lines, one of them empty, with a flush packet before and a delimiter between them. -/
def twoLines : List PktItem := [.flush, .line "command=ls-refs".toList, .delim, .line []]

theorem pkt_lines_round_trip_two :
    parsePktLines (twoLines.flatMap PktItem.bytes) = some (.ok (twoLines.filterMap PktItem.text?)) ∧
    ∀ n, ∃ lines, lines <+: twoLines.filterMap PktItem.text? ∧
      parsePktLines ((twoLines.flatMap PktItem.bytes).take n) = some (.ok lines) := by
  refine pkt_lines_round_trip _ fun item hitem => ?_
  simp only [twoLines, List.mem_cons, List.not_mem_nil, or_false] at hitem
  rcases hitem with rfl | rfl | rfl | rfl
  · trivial
  · exact ⟨by decide, by decide⟩
  · trivial
  · exact ⟨by decide, by decide⟩

/-! ## Sidebands -/

/-- A packet of a response with a pack in it. -/
inductive SidePacket where
  | pack (payload : Bytes)
  | progress (payload : Bytes)
  | error (payload : Bytes)
  | text (payload : Bytes)
  | flush
  | delim
  deriving DecidableEq, Repr

namespace SidePacket

def packet : SidePacket → Packet
  | pack payload => .line (1 :: payload)
  | progress payload => .line (2 :: payload)
  | error payload => .line (3 :: payload)
  | text payload => .line payload
  | flush => .flush
  | delim => .delim

/-- The part of the pack that is in the packet. -/
def part : SidePacket → Bytes
  | pack payload => payload
  | _ => []

/-- The packet fits, and a text is none of the channels and no pack. -/
def Fits : SidePacket → Prop
  | text payload => payload.length + 4 < 16 ^ 4 ∧ payload.head? ≠ some 1 ∧ payload.head? ≠ some 2 ∧
      payload.head? ≠ some 3 ∧ ¬ asBytes "PACK".toList <+: payload
  | p => p.packet.Fits

theorem Fits.packet {p : SidePacket} (h : p.Fits) : p.packet.Fits := by
  cases p with
  | text payload => exact h.1
  | _ => exact h

/-- What the loop does with the packet. -/
theorem read_sideband {p : SidePacket} (h : p.Fits) (pack : Bytes) :
    (∃ payload, p = .error payload ∧ p.packet.read sideband pack = .error (.remote (fromUtf8Lossy payload))) ∨
    (∀ payload, p ≠ .error payload) ∧ p.packet.read sideband pack = .ok (pack ++ p.part) := by
  cases p with
  | error payload => exact .inl ⟨payload, rfl, rfl⟩
  | pack payload => exact .inr ⟨by simp, rfl⟩
  | progress payload => exact .inr ⟨by simp, congrArg _ (List.append_nil _).symm⟩
  | flush => exact .inr ⟨by simp, congrArg _ (List.append_nil _).symm⟩
  | delim => exact .inr ⟨by simp, congrArg _ (List.append_nil _).symm⟩
  | text payload =>
    obtain ⟨-, hone, htwo, hthree, hpack⟩ := h
    have hskip : sideband pack payload = .ok pack := by
      cases payload with
      | nil => rfl
      | cons c cs =>
        simp only [List.head?_cons, ne_eq, Option.some.injEq] at hone htwo hthree
        unfold sideband
        simp only
        rw [if_neg hone, if_neg htwo, if_neg hthree, if_neg]
        rwa [List.isPrefixOf_iff_prefix]
    exact .inr ⟨by simp, hskip.trans (congrArg _ (List.append_nil _).symm)⟩

end SidePacket

theorem read_sidebands {packets : List SidePacket} (h : ∀ p ∈ packets, p.Fits) (pack : Bytes) :
    (∃ payload, .error payload ∈ packets ∧
      (packets.map SidePacket.packet).foldlM (Packet.read sideband) pack = .error (.remote (fromUtf8Lossy payload))) ∨
    (∀ payload, .error payload ∉ packets) ∧
      (packets.map SidePacket.packet).foldlM (Packet.read sideband) pack =
        .ok (pack ++ packets.flatMap SidePacket.part) := by
  induction packets generalizing pack with
  | nil =>
    refine .inr ⟨fun _ => List.not_mem_nil, ?_⟩
    rw [List.flatMap_nil, List.append_nil]
    rfl
  | cons p packets ih =>
    rw [List.map_cons, List.foldlM_cons]
    rcases SidePacket.read_sideband (h p List.mem_cons_self) pack with ⟨payload, rfl, hread⟩ | ⟨hp, hread⟩ <;>
      rw [hread]
    · exact .inl ⟨payload, List.mem_cons_self, rfl⟩
    · rw [List.flatMap_cons, ← List.append_assoc]
      rcases ih (fun q hq => h q (List.mem_cons_of_mem _ hq)) (pack ++ p.part) with ⟨payload, hmem, hrest⟩ | ⟨hnone, hrest⟩
      · exact .inl ⟨payload, List.mem_cons_of_mem _ hmem, hrest⟩
      · refine .inr ⟨fun payload hmem => ?_, hrest⟩
        rcases List.mem_cons.mp hmem with heq | hmem
        · exact hp payload heq.symm
        · exact hnone payload hmem

/-- However a pack is cut into packets, and whatever stands between them, it is put together again; one packet with
an error is enough to fail. -/
theorem sideband_demultiplexes (packets : List SidePacket) (h : ∀ p ∈ packets, p.Fits) :
    (∀ pack, pack ≠ [] → packets.flatMap SidePacket.part = pack → (∀ payload, .error payload ∉ packets) →
      extractPackFromSideband (stream (packets.map SidePacket.packet)) = some (.ok pack)) ∧
    ∀ payload, .error payload ∈ packets →
      ∃ e, extractPackFromSideband (stream (packets.map SidePacket.packet)) = some (.err e) := by
  have hfits : ∀ p ∈ packets.map SidePacket.packet, p.Fits := by
    intro p hp
    obtain ⟨q, hq, rfl⟩ := List.mem_map.mp hp
    exact (h q hq).packet
  unfold extractPackFromSideband
  constructor
  · intro pack hne hparts hnone
    rcases read_sidebands h [] with ⟨payload, hmem, -⟩ | ⟨-, hread⟩
    · exact absurd hmem (hnone payload)
    · rw [pktLoop_stream hfits hread, hparts, List.nil_append]
      cases pack with
      | nil => exact absurd rfl hne
      | cons b pack => rfl
  · intro payload hmem
    rcases read_sidebands h [] with ⟨payload', -, hread⟩ | ⟨hnone, -⟩
    · rw [pktLoop_stream_error hfits hread]
      exact ⟨_, rfl⟩
    · exact absurd hmem (hnone payload)

/-- A pack that looks like a packet with an error, cut inside the word. -/
def cutPack : List SidePacket :=
  [.text (asBytes "packfile\n".toList), .pack (asBytes "PA".toList), .progress [], .delim,
    .pack (asBytes "CK0005\x03".toList), .flush]

theorem cutPack_fits : ∀ p ∈ cutPack ++ [SidePacket.error []], p.Fits := by
  intro p hp
  simp only [cutPack, List.cons_append, List.nil_append, List.mem_cons, List.not_mem_nil, or_false] at hp
  rcases hp with rfl | rfl | rfl | rfl | rfl | rfl | rfl
  · exact ⟨by decide, by decide, by decide, by decide, by decide⟩
  · exact (by decide : (1 :: asBytes "PA".toList).length + 4 < 16 ^ 4)
  · exact (by decide : ([2] : Bytes).length + 4 < 16 ^ 4)
  · trivial
  · exact (by decide : (1 :: asBytes "CK0005\x03".toList).length + 4 < 16 ^ 4)
  · trivial
  · exact (by decide : ([3] : Bytes).length + 4 < 16 ^ 4)

theorem sideband_demultiplexes_cut :
    extractPackFromSideband (stream (cutPack.map SidePacket.packet)) = some (.ok (asBytes "PACK0005\x03".toList)) ∧
    ∃ e, extractPackFromSideband (stream ((cutPack ++ [SidePacket.error []]).map SidePacket.packet)) = some (.err e) := by
  constructor
  · exact (sideband_demultiplexes cutPack fun p hp => cutPack_fits p (List.mem_append_left _ hp)).1 _ (by decide)
      (by decide) (by simp [cutPack])
  · exact (sideband_demultiplexes _ cutPack_fits).2 [] (List.mem_append_right _ List.mem_cons_self)

end GitNfs
