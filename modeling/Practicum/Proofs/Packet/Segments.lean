import Mathlib.Data.List.Basic
import Practicum.Net.Packet
import Practicum.Proofs.Runs

/-!
# Segments on the wire

A segment is a TCP header with the headers around it and what it carries. The bytes of a segment are
those of its headers, with checksums that cover what it carries, and then the payload. Addresses and
ports can be read back from them, and no payload but the empty one is written like none.
-/

namespace Practicum.Net

open List Bytes

variable {t : Tcp} {ip : Ipv4} {out a : Bytes} {s : Segment}

/-! ## Numbers in bytes -/

namespace Bytes

theorem slice_append_of_le {start : Nat} (h : a.length ≤ start) (stop : Nat) (b : Bytes) :
    (a ++ b).slice start stop = b.slice (start - a.length) (stop - a.length) := by
  rw [slice, take_append, drop_append, drop_eq_nil_of_le (Nat.le_trans
    (length_take_le' _ _) h), length_take]
  by_cases hstop : a.length ≤ stop
  · rw [Nat.min_eq_right hstop]
    rfl
  · have hnone : stop - a.length = 0 := by omega
    simp [hnone, slice]

theorem slice_append_left {stop : Nat} (h : a.length = stop) (b : Bytes) :
    (a ++ b).slice 0 stop = a := by
  rw [slice, drop_zero, take_append_of_le_length (Nat.le_of_eq h.symm),
    take_of_length_le (Nat.le_of_eq h)]

theorem number_append_of_le {position : Nat} (h : a.length ≤ position) (width : Nat) (b : Bytes) :
    (a ++ b).number position width = b.number (position - a.length) width := by
  have hstop : position + width - a.length = position - a.length + width := by omega
  rw [number, slice_append_of_le h, hstop, number]

theorem number_ofNat_append (width n : Nat) (b : Bytes) :
    (ofNat width n ++ b).number 0 width = n % Nat.pow 256 width := by
  rw [number, slice_append_left (by simp), toNat_ofNat]

theorem length_slice (start stop : Nat) (bytes : Bytes) :
    (bytes.slice start stop).length = min stop bytes.length - start := by
  rw [slice, length_drop, length_take]

theorem number_lt (position width : Nat) (bytes : Bytes) :
    bytes.number position width < Nat.pow 256 width := by
  have hlength : (bytes.slice position (position + width)).length ≤ width := by
    rw [length_slice]
    omega
  exact Nat.lt_of_lt_of_le (toNat_lt _) (Nat.pow_le_pow_right (by decide) hlength)

end Bytes

theorem Address.length_toBytes {a : Address} (h : a.family = .v4) : a.toBytes.length = 4 := by
  rw [toBytes, h]
  rfl

theorem Address.ofBytes_toBytes {a : Address} (h : a.family = .v4) : ofBytes a.toBytes = a := by
  obtain ⟨family, value, zone, hvalue, hzone⟩ := a
  obtain rfl : family = .v4 := h
  obtain rfl : zone = none := hzone rfl
  have hlt : value < 4294967296 := hvalue
  have hmod : value % 4294967296 % 4294967296 = value := by omega
  simp only [ofBytes, toBytes, ofNat, Family.bits, toNat_ofNat, Nat.pow_eq]
  congr 1

namespace Packet

/-! ## Headers -/

def Tcp.fixedBytes (t : Tcp) (sum : Nat) : Bytes :=
  let words := if t.headerWords = 0 then (20 + t.optionBytes.length) / 4 else t.headerWords
  ofNat 2 t.sourcePort.toNat ++ ofNat 2 t.targetPort.toNat ++ ofNat 4 t.sequence
    ++ ofNat 4 t.acknowledgement ++ ofNat 1 (words * 16) ++ ofNat 1 t.flags
    ++ ofNat 2 t.window ++ ofNat 2 sum ++ ofNat 2 t.urgent

def Tcp.PortsFit (t : Tcp) : Prop :=
  (0 ≤ t.sourcePort ∧ t.sourcePort < 65536) ∧ 0 ≤ t.targetPort ∧ t.targetPort < 65536

@[simp]
theorem Tcp.length_fixedBytes (t : Tcp) (sum : Nat) : (t.fixedBytes sum).length = 20 := by
  simp [fixedBytes]

theorem Tcp.bytesWith_of_portsFit (h : t.PortsFit) (sum : Nat) :
    t.bytesWith sum = .ok (t.fixedBytes sum ++ t.optionBytes) := by
  simp only [bytesWith, word, if_pos h.1, if_pos h.2]
  rfl

theorem Tcp.portsFit_of_bytesWith {sum : Nat} {bytes : Bytes} (h : t.bytesWith sum = .ok bytes) :
    t.PortsFit := by
  by_contra hnot
  rw [PortsFit, not_and_or] at hnot
  simp only [bytesWith, word] at h
  rcases hnot with hsource | htarget
  · rw [if_neg hsource] at h
    cases h
  · rw [if_neg htarget] at h
    split at h <;> cases h

theorem Tcp.portsFit_of_read? {bytes rest : Bytes} (h : Tcp.read? bytes = some (t, rest)) :
    t.PortsFit := by
  have hsource : bytes.number 0 2 < 65536 := number_lt 0 2 bytes
  have htarget : bytes.number 2 2 < 65536 := number_lt 2 2 bytes
  unfold Tcp.read? at h
  split at h <;> cases h
  dsimp only [PortsFit]
  omega

theorem readable_of_mem {bytes : Bytes} {n k : Nat} (hlength : n ≤ bytes.length)
    (hmem : UInt8.ofNat k ∈ bytes) (hk : k % 256 ≠ 0) : readable n bytes = true := by
  simp only [readable, Bool.and_eq_true, decide_eq_true_iff, any_eq_true]
  refine ⟨hlength, _, hmem, fun h0 => hk ?_⟩
  simpa using congrArg UInt8.toNat h0

theorem Tcp.read?_fixedBytes (hports : t.PortsFit) (hwords : t.headerWords < 16)
    (hoptions : t.headerWords = 0 → t.options = []) (sum : Nat) (rest : Bytes) :
    ∃ t' rest', Tcp.read? (t.fixedBytes sum ++ rest) = some (t', rest') ∧
      t'.sourcePort = t.sourcePort ∧ t'.targetPort = t.targetPort := by
  obtain ⟨⟨_, _⟩, _, _⟩ := hports
  -- The length of the header is written, and is not zero.
  have hreadable : readable 20 (t.fixedBytes sum ++ rest) = true := by
    have hlength : 20 ≤ (t.fixedBytes sum ++ rest).length := by simp [length_fixedBytes]
    by_cases hzero : t.headerWords = 0
    · refine readable_of_mem (k := 80) hlength ?_ (by decide)
      simp [fixedBytes, optionBytes, hoptions hzero, hzero, ofNat]
    · refine readable_of_mem (k := t.headerWords * 16 % 256) hlength ?_ (by omega)
      simp [fixedBytes, hzero, ofNat]
  simp only [Tcp.read?, if_pos hreadable]
  refine ⟨_, _, rfl, ?_, ?_⟩
  · simp only [fixedBytes, append_assoc, number_ofNat_append]
    show ((t.sourcePort.toNat % 65536 : Nat) : Int) = t.sourcePort
    omega
  · simp only [fixedBytes, append_assoc]
    rw [number_append_of_le (by simp), length_ofNat, number_ofNat_append]
    show ((t.targetPort.toNat % 65536 : Nat) : Int) = t.targetPort
    omega

/-- The header of a packet as it can be read off a frame with a segment. -/
structure Ipv4.Sized (ip : Ipv4) : Prop where
  words : ip.headerWords < 16
  total : ip.headerWords * 4 + 20 ≤ ip.total
  total_lt : ip.total < 65536
  protocol : ip.protocol = protocolTcp
  options : ip.options.length = ip.headerWords * 4 - 20
  source : ip.source.family = .v4
  target : ip.target.family = .v4

theorem Ipv4.Sized.length_bytesWith (h : ip.Sized) (hwords : 5 ≤ ip.headerWords) (sum : Nat) :
    (ip.bytesWith ip.total sum).length = ip.headerWords * 4 := by
  have hoptions := h.options
  simp only [bytesWith, fill, length_append, length_ofNat,
    Address.length_toBytes h.source, Address.length_toBytes h.target, length_replicate]
  omega

theorem Ipv4.Sized.read?_bytesWith (h : ip.Sized) (hversion : ip.version = 4)
    (hwords : 5 ≤ ip.headerWords) (sum : Nat) (rest : Bytes) :
    ∃ ip', Ipv4.read? (ip.bytesWith ip.total sum ++ rest) =
        some (ip', rest.take (ip.total - ip.headerWords * 4)) ∧
      ip'.protocol = protocolTcp ∧ ip'.source = ip.source ∧ ip'.target = ip.target := by
  have hlength := h.length_bytesWith hwords sum
  have hlt := h.words
  have htotal := h.total_lt
  have hfirst : (ip.bytesWith ip.total sum ++ rest).number 0 1 = 64 + ip.headerWords := by
    simp only [bytesWith, fill, append_assoc, number_ofNat_append, hversion]
    show (4 * 16 + ip.headerWords) % 256 = _
    omega
  have hreadTotal : (ip.bytesWith ip.total sum ++ rest).number 2 2 = ip.total := by
    simp [bytesWith, fill, number_append_of_le, number_ofNat_append, Nat.mod_eq_of_lt htotal]
  have hprotocol : (ip.bytesWith ip.total sum ++ rest).number 9 1 = protocolTcp := by
    simp [bytesWith, fill, number_append_of_le, number_ofNat_append, h.protocol, protocolTcp]
  have hsource : (ip.bytesWith ip.total sum ++ rest).slice 12 16 = ip.source.toBytes := by
    simp [bytesWith, fill, slice_append_of_le, slice_append_left (Address.length_toBytes h.source)]
  have htarget : (ip.bytesWith ip.total sum ++ rest).slice 16 20 = ip.target.toBytes := by
    simp [bytesWith, fill, slice_append_of_le, Address.length_toBytes h.source,
      slice_append_left (Address.length_toBytes h.target)]
  have hreadable : readable 20 (ip.bytesWith ip.total sum ++ rest) = true := by
    refine readable_of_mem (k := (ip.version * 16 + ip.headerWords) % 256) ?_ ?_ (by omega)
    · rw [length_append]
      omega
    · simp [bytesWith, fill, ofNat]
  have hrest : (ip.bytesWith ip.total sum ++ rest).slice (ip.headerWords * 4) ip.total =
      rest.take (ip.total - ip.headerWords * 4) := by
    rw [slice_append_of_le (Nat.le_of_eq hlength), hlength, Nat.sub_self, slice, drop_zero]
  have hreadWords : (64 + ip.headerWords) % 16 = ip.headerWords := by omega
  simp only [Ipv4.read?, if_pos hreadable, hfirst, hreadWords, hreadTotal, hrest, hprotocol, hsource,
    htarget, Address.ofBytes_toBytes h.source, Address.ofBytes_toBytes h.target]
  exact ⟨_, rfl, rfl, rfl, rfl⟩

/-! ## Segments -/

structure Segment where
  ethernet : Ethernet
  ip : Ipv4
  tcp : Tcp
  payload : Bytes
  deriving DecidableEq, Repr

namespace Segment

def read? (data : Bytes) : Option Segment := do
  let f ← Frame.read? data
  return { ethernet := f.ethernet, ip := ← f.ip, tcp := ← f.tcp, payload := f.payload }

/-- The bytes of a segment. The checksum of its own header covers the payload. -/
def write (s : Segment) : Except WriteError Bytes := do
  let blank ← s.tcp.bytesWith 0
  if s.ip.version = 6 then throw (.badAddress s.ip.source.text)
  else if s.ip.version ≠ 4 then throw .unknownVersion
  else
    let covered := Tcp.pseudoHeader s.ip (blank.length + s.payload.length) ++ blank ++ s.payload
    let header ← s.tcp.bytesWith (checksum covered)
    return s.ethernet.write (← s.ip.write (header ++ s.payload))

variable {e : Envelope} {tcp : Tcp} {data : Bytes}

/-- What is written for an envelope and two headers is a segment that carries nothing. -/
theorem writeSegment_eq {ethernet : Ethernet} (h : e.ethernet = .ok ethernet) (ip : Ipv4)
    (tcp : Tcp) : writeSegment e ip tcp = write ⟨ethernet, ip, tcp, []⟩ := by
  simp only [writeSegment, write, Tcp.write, Envelope.write, h, append_nil]
  cases tcp.bytesWith 0 with
  | error _ => rfl
  | ok _ =>
    by_cases hsix : ip.version = 6
    · simp only [if_pos hsix]
      rfl
    by_cases hfour : ip.version = 4
    · simp only [hfour]
      rfl
    · simp only [if_neg hsix, if_pos hfour]
      rfl

theorem exists_ethernet_of_writeSegment (h : writeSegment e ip tcp = .ok out) :
    ∃ ethernet, e.ethernet = .ok ethernet := by
  obtain ⟨_, _, -, -, h⟩ := of_bind₂ h
  obtain ⟨ethernet, hethernet, -⟩ := of_bind h
  exact ⟨ethernet, hethernet⟩

def sum (s : Segment) : Nat :=
  let blank := s.tcp.fixedBytes 0 ++ s.tcp.optionBytes
  checksum (Tcp.pseudoHeader s.ip (blank.length + s.payload.length) ++ blank ++ s.payload)

/-- The packet of a segment, if its header gives its length. -/
def packetBytes (s : Segment) : Bytes :=
  s.ip.bytesWith s.ip.total (checksum (s.ip.bytesWith s.ip.total 0)) ++
    (s.tcp.fixedBytes s.sum ++ s.tcp.optionBytes ++ s.payload)

/-- A segment can be written if its ports fit and its packet has a header of the first family that is
not too short. -/
structure Writable (s : Segment) : Prop where
  version : s.ip.version = 4
  words : 5 ≤ s.ip.headerWords
  ports : s.tcp.PortsFit

theorem Writable.write_eq (h : s.Writable) (htotal : s.ip.total ≠ 0) :
    s.write = .ok (s.ethernet.write s.packetBytes) := by
  simp only [write, Tcp.bytesWith_of_portsFit h.ports, h.version, Ipv4.write, if_neg htotal, if_neg
    (Nat.not_lt_of_le h.words)]
  rfl

theorem writable_of_write (h : s.write = .ok out) : s.Writable := by
  obtain ⟨_, hblank, h⟩ := of_bind h
  have hports := Tcp.portsFit_of_bytesWith hblank
  split at h
  · cases h
  split at h
  · cases h
  next hfour =>
  refine ⟨not_not.mp hfour, ?_, hports⟩
  by_contra hshort
  obtain ⟨_, _, -, hpacket, -⟩ := of_bind₂ h
  rw [Ipv4.write, if_pos (Nat.lt_of_not_le hshort)] at hpacket
  cases hpacket

theorem write_eq_ok_iff (htotal : s.ip.total ≠ 0) (out : Bytes) :
    s.write = .ok out ↔ s.Writable ∧ out = s.ethernet.write s.packetBytes := by
  constructor
  · intro h
    have hwritable := writable_of_write h
    rw [hwritable.write_eq htotal] at h
    exact ⟨hwritable, (Except.ok.inj h).symm⟩
  · rintro ⟨hwritable, rfl⟩
    exact hwritable.write_eq htotal

/-! ## Reading back -/

structure Sized (s : Segment) : Prop where
  type : s.ethernet.type = typeIpv4
  ip : s.ip.Sized
  words : s.tcp.headerWords < 16
  options : s.tcp.headerWords = 0 → s.tcp.options = []
  ports : s.tcp.PortsFit

theorem Sized.read?_write (h : s.Sized) (hout : s.write = .ok out) :
    ∃ s', read? out = some s' ∧ s'.ip.source = s.ip.source ∧ s'.ip.target = s.ip.target ∧
      s'.tcp.sourcePort = s.tcp.sourcePort ∧ s'.tcp.targetPort = s.tcp.targetPort := by
  have htotal := h.ip.total
  obtain ⟨hwritable, rfl⟩ := (write_eq_ok_iff (by omega) out).mp hout
  have hreadable : readable 14 (s.ethernet.write s.packetBytes) = true := by
    refine readable_of_mem (k := 8) ?_ ?_ (by decide)
    · simp only [Ethernet.write, Mac.toBytes, length_append, length_ofNat]
      omega
    · simp [Ethernet.write, h.type, typeIpv4, ofNat]
  have htype : (s.ethernet.write s.packetBytes).number 12 2 = typeIpv4 := by
    simp [Ethernet.write, Mac.toBytes, h.type, number_append_of_le, number_ofNat_append, typeIpv4]
  have hdrop : (s.ethernet.write s.packetBytes).drop 14 = s.packetBytes.fill 46 := by
    rw [Ethernet.write]
    exact drop_left' (by simp [Mac.toBytes])
  -- What follows the header of the packet begins with the header of the segment.
  obtain ⟨zeros, hfill⟩ : ∃ zeros, s.packetBytes.fill 46 =
      s.ip.bytesWith s.ip.total (checksum (s.ip.bytesWith s.ip.total 0)) ++
        (s.tcp.fixedBytes s.sum ++ (s.tcp.optionBytes ++ (s.payload ++ zeros))) :=
    ⟨replicate (46 - s.packetBytes.length) 0, by
      rw [fill, packetBytes]
      simp only [append_assoc]⟩
  obtain ⟨ip, hip, hprotocol, hsource, htarget⟩ := h.ip.read?_bytesWith hwritable.version
    hwritable.words (checksum (s.ip.bytesWith s.ip.total 0))
    (s.tcp.fixedBytes s.sum ++ (s.tcp.optionBytes ++ (s.payload ++ zeros)))
  have hcut : (s.tcp.fixedBytes s.sum ++ (s.tcp.optionBytes ++ (s.payload ++ zeros))).take
      (s.ip.total - s.ip.headerWords * 4) = s.tcp.fixedBytes s.sum ++
        (s.tcp.optionBytes ++ (s.payload ++ zeros)).take (s.ip.total - s.ip.headerWords * 4 - 20) := by
    rw [take_append, Tcp.length_fixedBytes,
      take_of_length_le (by rw [Tcp.length_fixedBytes]; omega)]
  obtain ⟨tcp, rest, htcp, hports⟩ := Tcp.read?_fixedBytes h.ports h.words h.options s.sum
    ((s.tcp.optionBytes ++ (s.payload ++ zeros)).take (s.ip.total - s.ip.headerWords * 4 - 20))
  rw [hcut] at hip
  have hnotArp : ¬ typeIpv4 = typeArp := by decide
  let ethernet : Ethernet :=
    { target := .ofBytes ((s.ethernet.write s.packetBytes).slice 0 6)
      source := .ofBytes ((s.ethernet.write s.packetBytes).slice 6 12)
      type := typeIpv4 }
  refine ⟨⟨ethernet, ip, tcp, rest⟩, ?_, hsource, htarget, hports⟩
  simp only [read?, Frame.read?, if_pos hreadable, htype, hdrop, Frame.withPacket, if_neg hnotArp,
    if_true, hfill, hip, Frame.withTcp, hprotocol, htcp]
  rfl

theorem headers_of_withTcp {f : Frame} {protocol : Nat} (hnone : f.tcp = none)
    (htcp : (f.withTcp protocol).tcp = some tcp) :
    protocol = protocolTcp ∧ Tcp.read? f.payload = some (tcp, (f.withTcp protocol).payload) ∧
      (f.withTcp protocol).ethernet = f.ethernet ∧ (f.withTcp protocol).ip = f.ip := by
  revert htcp
  fun_cases Frame.withTcp protocol f with
  | case1 hprotocol _ payload hread =>
    rintro ⟨⟩
    exact ⟨hprotocol, hread, rfl, rfl⟩
  | case2 hprotocol hread => simp [hnone]
  | case3 hprotocol => simp [hnone]

theorem headers_of_withPacket {f : Frame} (hnone : f.tcp = none) (hnoIp : f.ip = none)
    (hip : f.withPacket.ip = some ip) (htcp : f.withPacket.tcp = some tcp) :
    f.withPacket.ethernet.type = typeIpv4 ∧ ip.protocol = protocolTcp ∧
      ∃ segment, Ipv4.read? f.payload = some (ip, segment) ∧
        Tcp.read? segment = some (tcp, f.withPacket.payload) := by
  revert hip htcp
  fun_cases Frame.withPacket f with
  | case1 harp => simp [hnone]
  | case2 harp htype _ payload hread =>
    intro hip htcp
    obtain ⟨hprotocol, htcp, hethernet, hsame⟩ := headers_of_withTcp (by exact hnone) htcp
    rw [hsame] at hip
    injection hip with hip
    rw [hethernet, ← hip]
    exact ⟨htype, hprotocol, payload, hread, htcp⟩
  | case3 harp htype hread => simp [hnone]
  | case4 harp htype hipv6 _ =>
    intro hip htcp
    obtain ⟨-, -, -, hsame⟩ := headers_of_withTcp (by exact hnone) htcp
    rw [hsame] at hip
    simp [hnoIp] at hip
  | case5 harp htype hipv6 => simp [hnone]

theorem headers_of_read? (h : read? data = some s) :
    s.ethernet.type = typeIpv4 ∧ s.ip.protocol = protocolTcp ∧
      ∃ bytes segment, Ipv4.read? bytes = some (s.ip, segment) ∧
        Tcp.read? segment = some (s.tcp, s.payload) := by
  simp only [read?, Option.bind_eq_bind, Option.bind_eq_some_iff, Option.pure_def,
    Option.some.injEq] at h
  obtain ⟨f, hframe, ip, hip, tcp, htcp, rfl⟩ := h
  unfold Frame.read? at hframe
  split at hframe <;> cases hframe
  obtain ⟨htype, hprotocol, segment, hread⟩ := headers_of_withPacket rfl rfl hip htcp
  exact ⟨htype, hprotocol, _, segment, hread⟩

theorem sized_of_read? (h : read? data = some s) : s.Sized := by
  obtain ⟨htype, hprotocol, bytes, segment, hip, htcp⟩ := headers_of_read? h
  have hports : s.tcp.headerWords < 16 ∧ (s.tcp.headerWords = 0 → s.tcp.options = []) ∧
      20 ≤ segment.length := by
    by_cases hreadable : readable 20 segment
    · simp only [Tcp.read?, if_pos hreadable, Option.some.injEq, Prod.mk.injEq] at htcp
      obtain ⟨htcp, -⟩ := htcp
      have hwords : segment.number 12 1 < 256 := number_lt 12 1 segment
      simp only [readable, Bool.and_eq_true, decide_eq_true_iff] at hreadable
      rw [← htcp]
      refine ⟨?_, fun hzero => ?_, hreadable.1⟩
      · show segment.number 12 1 / 16 < 16
        omega
      · show segment.slice 20 (segment.number 12 1 / 16 * 4) = []
        rw [show segment.number 12 1 / 16 = 0 from hzero]
        rfl
    · simp only [Tcp.read?, if_neg hreadable, reduceCtorEq] at htcp
  obtain ⟨hwords, hoptions, _⟩ := hports
  refine ⟨htype, ?_, hwords, hoptions, Tcp.portsFit_of_read? htcp⟩
  by_cases hreadable : readable 20 bytes
  · simp only [Ipv4.read?, if_pos hreadable, Option.some.injEq, Prod.mk.injEq] at hip
    obtain ⟨hip, hsegment⟩ := hip
    have htotal : bytes.number 2 2 < 65536 := number_lt 2 2 bytes
    have hcut := congrArg length hsegment
    rw [length_slice] at hcut
    rw [← hip] at hprotocol ⊢
    refine ⟨Nat.mod_lt _ (by decide), ?_, htotal, hprotocol, ?_, rfl, rfl⟩
    · show bytes.number 0 1 % 16 * 4 + 20 ≤ bytes.number 2 2
      omega
    · show (bytes.slice 20 (bytes.number 0 1 % 16 * 4)).length = bytes.number 0 1 % 16 * 4 - 20
      rw [length_slice]
      omega
  · simp only [Ipv4.read?, if_neg hreadable, reduceCtorEq] at hip

end Segment

/-! ## Checksums -/

theorem wordSum_append (h : a.length % 2 = 0) (b : Bytes) :
    wordSum (a ++ b) = wordSum a + wordSum b := by
  fun_induction wordSum a with
  | case1 => simp
  | case2 a => simp at h
  | case3 a _ rest ih =>
    have hrest : rest.length % 2 = 0 := by
      simp only [length_cons] at h
      omega
    simp only [cons_append, wordSum, ih hrest]
    omega

theorem wordSum_zeros : ∀ n, wordSum (replicate n 0) = 0
  | 0 => rfl
  | 1 => rfl
  | n + 2 => by simp [replicate_succ, wordSum, wordSum_zeros n]

theorem wordSum_append_zeros (a : Bytes) (n : Nat) : wordSum (a ++ replicate n 0) = wordSum a := by
  fun_induction wordSum a with
  | case1 => exact wordSum_zeros n
  | case2 a =>
    cases n with
    | zero => rfl
    | succ n => simp [replicate_succ, wordSum, wordSum_zeros n]
  | case3 a b _ ih => simp only [cons_append, wordSum, ih]

theorem wordSum_le (a : Bytes) : wordSum a ≤ 65536 * a.length := by
  fun_induction wordSum a with
  | case1 => simp
  | case2 a =>
    have ha := a.toNat_lt
    simp only [length_singleton]
    omega
  | case3 a b _ ih =>
    have ha := a.toNat_lt
    have hb := b.toNat_lt
    simp only [length_cons]
    omega

/-- Bytes together with their checksum have the sum zero, where carries count as one. -/
theorem exists_wordSum_add_checksum (h : wordSum a < 4294967296) :
    ∃ k, wordSum a + checksum a = 65535 * k := by
  simp only [checksum]
  generalize wordSum a = sum at h
  have hfirst : sum % 65536 + sum / 65536 + 65535 * (sum / 65536) = sum := by omega
  generalize hcarried : sum % 65536 + sum / 65536 = carried at hfirst
  refine ⟨sum / 65536 + carried / 65536 + 1, ?_⟩
  omega

theorem checksum_ne {b : Bytes} {n : Nat} (h : wordSum b = wordSum a + n) (hpos : 0 < n)
    (hn : n < 65535) (hb : wordSum b < 4294967296) : checksum a ≠ checksum b := by
  obtain ⟨j, _⟩ := exists_wordSum_add_checksum (a := a) (by omega)
  obtain ⟨k, _⟩ := exists_wordSum_add_checksum hb
  omega

theorem wordSum_pseudoHeader_append (ip : Ipv4) (length : Nat) (rest : Bytes) :
    wordSum (Tcp.pseudoHeader ip length ++ rest) =
      wordSum (ip.source.toBytes ++ ip.target.toBytes ++ [0] ++ ofNat 1 ip.protocol) +
        length % 65536 + wordSum rest := by
  have heven : ∀ a : Address, a.toBytes.length % 2 = 0 := by
    intro a
    rw [Address.toBytes, length_ofNat]
    cases a.family <;> rfl
  have hfirst : (ip.source.toBytes ++ ip.target.toBytes ++ [0] ++
      ofNat 1 ip.protocol).length % 2 = 0 := by
    have hsource := heven ip.source
    have htarget := heven ip.target
    simp only [length_append, length_singleton, length_ofNat]
    omega
  have hlength : wordSum (ofNat 2 length) = length % 65536 := by
    simp only [ofNat, nil_append, cons_append, wordSum, UInt8.toNat_ofNat']
    omega
  have hrest : wordSum (ofNat 2 length ++ rest) = length % 65536 + wordSum rest := by
    rw [wordSum_append (by rw [length_ofNat]), hlength]
  rw [Tcp.pseudoHeader, append_assoc, wordSum_append hfirst, hrest, Nat.add_assoc]

namespace Segment

theorem fixedBytes_injective {m n : Nat} (hm : m < 65536) (hn : n < 65536)
    (h : t.fixedBytes m = t.fixedBytes n) : m = n := by
  have hnumber := congrArg (number 16 2) h
  simpa [Tcp.fixedBytes, number_append_of_le, number_ofNat_append, Nat.mod_eq_of_lt hm,
    Nat.mod_eq_of_lt hn] using hnumber

theorem checksum_lt (bytes : Bytes) : checksum bytes < 65536 := by
  simp only [checksum]
  omega

/-- A payload that is not longer than the filling of a frame, and like it, still counts in the
checksum. -/
theorem sum_ne_of_zeros {n : Nat} (hpayload : s.payload = replicate n 0) (hpos : 0 < n)
    (hshort : (s.tcp.fixedBytes 0 ++ s.tcp.optionBytes).length + n ≤ 46) :
    s.sum ≠ sum { s with payload := [] } := by
  simp only [sum, hpayload, length_replicate, length_nil, append_nil]
  generalize s.tcp.fixedBytes 0 ++ s.tcp.optionBytes = blank at hshort
  intro hsame
  refine checksum_ne (n := n) ?_ hpos (by omega) ?_ hsame.symm
  · rw [append_assoc, wordSum_pseudoHeader_append, wordSum_pseudoHeader_append,
      wordSum_append_zeros]
    omega
  · refine Nat.lt_of_le_of_lt (wordSum_le _) ?_
    have hwidth : ∀ a : Address, a.toBytes.length ≤ 16 := by
      intro a
      rw [Address.toBytes, length_ofNat]
      cases a.family <;> decide
    have hsource := hwidth s.ip.source
    have htarget := hwidth s.ip.target
    simp only [length_append, Tcp.pseudoHeader, length_singleton, length_ofNat, length_replicate]
    omega

/-- A segment is written like one that carries nothing only if it carries nothing. -/
theorem write_eq_write_empty_iff (htotal : s.ip.total ≠ 0)
    (hout : write { s with payload := [] } = .ok out) : s.write = .ok out ↔ s.payload = [] := by
  constructor
  · intro h
    have hfull := ((write_eq_ok_iff htotal out).mp h).2
    have hempty := ((write_eq_ok_iff (s := { s with payload := [] }) htotal out).mp hout).2
    have hbytes : s.ethernet.write s.packetBytes =
        s.ethernet.write (packetBytes { s with payload := [] }) := hfull.symm.trans hempty
    have hfilled := append_cancel_left hbytes
    by_contra hne
    have hpos := length_pos_iff.mpr hne
    -- Behind the same header of the packet come the headers of the segments, and behind those the
    -- payload with the filling on one side and the filling alone on the other.
    simp only [packetBytes, fill, append_assoc, append_cancel_left_eq, nil_append] at hfilled
    obtain ⟨hfixed, hrest⟩ := append_inj hfilled (by simp only [Tcp.length_fixedBytes])
    have hsum := fixedBytes_injective (checksum_lt _) (checksum_lt _) hfixed
    have hzeros := append_cancel_left hrest
    have hlength := congrArg length hzeros
    have hpayload := (append_eq_replicate_iff.mp hzeros).2.1
    refine sum_ne_of_zeros hpayload hpos ?_ hsum
    simp only [length_append, length_replicate, Tcp.length_fixedBytes, length_nil] at hlength ⊢
    omega
  · intro hempty
    rwa [← hempty] at hout

end Segment

end Packet

end Practicum.Net
