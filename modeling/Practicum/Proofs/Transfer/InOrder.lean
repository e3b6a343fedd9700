import Practicum.Net.Transfer.Session
import Practicum.Proofs.Runs
import Practicum.Proofs.Transfer.GoBackN

/-!
# Receiving in order

A receiver of go back N is given packets of a file, of which some may be lost, come again or come in
another order. It expects the packet behind the longest run of first packets that have come one
after the other, whatever came between them, and what it has written are the chunks before.
-/

namespace Practicum.Net.Transfer

open List

/-! ## Serving datagrams -/

section Serving

attribute [local simp] serve

variable {σ : Type} {take : σ → Bytes → Except TransferError (Reaction σ)} {ended : σ → Bool} {s : σ}

theorem serve_of_ended (h : ended s = true) (inbox : List (Option Bytes)) :
    serve take ended inbox s = { state := s, rest := inbox } := by
  rw [serve.eq_def]
  exact if_pos h

theorem serve_nil (h : ended s = false) :
    serve take ended [] s = { state := s, waiting := true } := by
  simp only [serve, h, Bool.false_eq_true, if_false]

theorem serve_cons (h : ended s = false) {packet : Bytes} {reaction : Reaction σ}
    (htake : take s (packet.take 1027) = .ok reaction) (inbox : List (Option Bytes)) :
    serve take ended (some packet :: inbox) s = { serve take ended inbox reaction.state with
        sent := reaction.sent ++ (serve take ended inbox reaction.state).sent
        printed := reaction.printed ++ (serve take ended inbox reaction.state).printed } := by
  simp only [serve, h, Bool.false_eq_true, if_false, htake]

theorem serve_cons_error (h : ended s = false) {packet : Bytes} {e : TransferError}
    (htake : take s (packet.take 1027) = .error e) (inbox : List (Option Bytes)) :
    serve take ended (some packet :: inbox) s = { state := s, fault := some e.fault } := by
  simp [h, htake]

end Serving

/-- In every state of a receiver that listens, a datagram without a full header makes no difference
to selective repeat. The two others look for its mark before they test its length, and fail. -/
theorem short_datagram_outcome {short : Bytes} (hshort : short.length < 3)
    (inbox : List (Option Bytes)) :
    (∀ r : StopAndWait.Receiver, r.ended = false →
      serve StopAndWait.Receiver.take (·.ended) (some short :: inbox) r =
        { state := r, fault := some .outOfRange }) ∧
    (∀ r : GoBackN.Receiver, r.ended = false →
      serve GoBackN.Receiver.take (·.ended) (some short :: inbox) r =
        { state := r, fault := some .outOfRange }) ∧
    ∀ r : SelectiveRepeat.Receiver, r.ended = false →
      serve SelectiveRepeat.Receiver.take (·.ended) (some short :: inbox) r =
        serve SelectiveRepeat.Receiver.take (·.ended) inbox r := by
  have hcut : short.take 1027 = short := take_of_length_le (by omega)
  have hmark : markOf short = .error .noMark := by
    rw [markOf, getElem?_eq_none (by omega)]
  refine ⟨fun r hr => serve_cons_error (e := .noMark) hr ?_ inbox,
    fun r hr => serve_cons_error (e := .noMark) hr ?_ inbox, fun r hr => ?_⟩
  · rw [hcut]
    exact congrArg (· >>= _) hmark
  · rw [hcut]
    exact congrArg (· >>= _) hmark
  · have htake : r.take (short.take 1027) = .ok { state := r } := by
      rw [hcut]
      exact if_pos hshort
    rw [serve_cons hr htake]
    simp

theorem short_datagram_outcome_twoBytes :
    serve GoBackN.Receiver.take (·.ended) [some [0, 1]] {} =
      { state := {}, fault := some .outOfRange } :=
  (short_datagram_outcome (by decide) []).2.1 {} rfl

theorem stopped_by_twoBytes :
    (serve StopAndWait.Receiver.take (·.ended) [some [0, 1]] {}).fault = some .outOfRange := by
  decide

namespace GoBackN

/-! ## Packets in any order -/

namespace Receiver

def loop (datagrams : List Bytes) : Served Receiver :=
  serve take (·.ended) (datagrams.map some) {}

/-- What a receiver does with some datagrams: it fails on none of them, waits for more unless it has
ended, and has got as far as the packets that it expects have come one after the other. -/
structure Advances (file : Bytes) (r : Receiver) (datagrams : List Bytes)
    (served : Served Receiver) : Prop where
  state : served.state.InOrder file
  fault : served.fault = none
  waiting : served.waiting = !served.state.ended
  reached : ∀ k ≤ packetCount file, k ≤ served.state.expected ↔
    (((numberedPackets file).take k).drop r.expected).Sublist datagrams

namespace InOrder

variable {file : Bytes} {r : Receiver}

theorem written_eq (h : r.InOrder file) (hended : r.ended = true) : r.written = file := by
  rw [h.written, h.ended.mp hended, firstChunks_packetCount]

theorem exists_take (h : r.InOrder file) (hfits : packetCount file ≤ 65536)
    (hended : r.ended = false) {i : Nat} (hi : i < packetCount file) :
    ∃ reaction, r.take ((numberedPacket file i).take 1027) = .ok reaction ∧
      reaction.state.InOrder file ∧
      reaction.state.expected = if i = r.expected then r.expected + 1 else r.expected := by
  have hlt := h.expected_lt hended
  rw [take_numberedPacket]
  by_cases hnumber : i = r.expected
  · subst hnumber
    obtain ⟨_, htake⟩ := r.take_expected file (by omega)
    exact ⟨_, htake, h.next hlt _, (if_pos rfl).symm⟩
  · exact ⟨_, r.take_other file (by omega) hnumber, h, (if_neg hnumber).symm⟩

/-- Of the packets that are missing in a run up to `k`, the first datagram can only be the next one,
with the number `e`. -/
theorem sublist_cons_iff (hfits : packetCount file ≤ 65536) {e i k : Nat}
    (he : e < packetCount file) (hi : i < packetCount file) (datagrams : List Bytes) :
    (((numberedPackets file).take k).drop e).Sublist (numberedPacket file i :: datagrams) ↔
      (((numberedPackets file).take k).drop (if i = e then e + 1 else e)).Sublist datagrams := by
  by_cases hk : k ≤ e
  · have hnone : ∀ n, e ≤ n → ((numberedPackets file).take k).drop n = [] := by
      intro n hn
      apply drop_eq_nil_of_le
      rw [length_take]
      omega
    rw [hnone e (Nat.le_refl e), hnone _ (by split <;> omega)]
    simp
  · have hnext : ((numberedPackets file).take k).drop e =
        numberedPacket file e :: ((numberedPackets file).take k).drop (e + 1) := by
      have hlength : e < ((numberedPackets file).take k).length := by
        rw [length_take, length_numberedPackets]
        omega
      rw [drop_eq_getElem_cons hlength]
      simp [numberedPackets]
    rw [hnext, cons_sublist_cons']
    by_cases hnumber : i = e
    · subst hnumber
      rw [if_pos rfl]
      refine ⟨?_, fun hrest => .inr ⟨rfl, hrest⟩⟩
      rintro (hall | ⟨-, hrest⟩)
      · exact (sublist_cons_self _ _).trans hall
      · exact hrest
    · rw [if_neg hnumber, hnext]
      refine ⟨?_, Or.inl⟩
      rintro (hall | ⟨hsame, -⟩)
      · exact hall
      · exact absurd (numberedPacket_injective (by omega) (by omega) hsame).symm hnumber

theorem advances_of_ended (h : r.InOrder file) (hended : r.ended = true) (datagrams : List Bytes) :
    Advances file r datagrams (serve take (·.ended) (datagrams.map some) r) := by
  rw [serve_of_ended hended]
  refine ⟨h, rfl, by simp only [hended, Bool.not_true], fun k hk => ?_⟩
  have hlast := h.ended.mp hended
  have hnone : ((numberedPackets file).take k).drop r.expected = [] := by
    apply drop_eq_nil_of_le
    rw [length_take]
    omega
  rw [hnone]
  exact iff_of_true (hlast.symm ▸ hk) (nil_sublist _)

theorem advances (h : r.InOrder file) (hfits : packetCount file ≤ 65536) (datagrams : List Bytes)
    (hdatagrams : ∀ d ∈ datagrams, d ∈ numberedPackets file) :
    Advances file r datagrams (serve take (·.ended) (datagrams.map some) r) := by
  induction datagrams generalizing r with
  | nil =>
    cases hended : r.ended with
    | true => exact h.advances_of_ended hended []
    | false =>
      rw [map_nil, serve_nil hended]
      refine ⟨h, rfl, by simp only [hended, Bool.not_false], fun k hk => ?_⟩
      rw [sublist_nil, drop_eq_nil_iff, length_take, length_numberedPackets, Nat.min_eq_left hk]
  | cons d datagrams ih =>
    cases hended : r.ended with
    | true => exact h.advances_of_ended hended (d :: datagrams)
    | false =>
      obtain ⟨i, hi, rfl⟩ := mem_map.mp (hdatagrams d mem_cons_self)
      have hi := mem_range.mp hi
      obtain ⟨_, htake, hnext, hexpected⟩ := h.exists_take hfits hended hi
      have hrest := ih hnext fun d hd => hdatagrams d (mem_cons_of_mem _ hd)
      rw [map_cons, serve_cons hended htake]
      refine ⟨hrest.state, hrest.fault, hrest.waiting, fun k hk => ?_⟩
      rw [sublist_cons_iff hfits (h.expected_lt hended) hi, ← hexpected]
      exact hrest.reached k hk

end InOrder

end Receiver

/-- A file of at most 65536 packets has packets, and whichever of them reach a receiver, and in which
order, it fails on none of them, and what it has written are the chunks before the one it expects.
It expects the packet with the number `k` or a later one exactly if the first `k` packets have come
one after the other. If it leaves its loop it has written the file, and it does so exactly if all
packets have come one after the other. What the command leaves in its file is what the receiver has
written. -/
theorem written_in_order {file : Bytes} (hfits : packetCount file ≤ 65536) :
    ∃ packets, filePackets file = .ok packets ∧
      ∀ datagrams : List Bytes, (∀ d ∈ datagrams, d ∈ packets) →
        (Receiver.loop datagrams).fault = none ∧
        (Receiver.loop datagrams).state.written =
          firstChunks file (Receiver.loop datagrams).state.expected ∧
        (∀ k ≤ packets.length,
          k ≤ (Receiver.loop datagrams).state.expected ↔ (packets.take k).Sublist datagrams) ∧
        ((Receiver.loop datagrams).waiting = false →
          (Receiver.loop datagrams).state.written = file) ∧
        ((Receiver.loop datagrams).waiting = false ↔ packets.Sublist datagrams) ∧
        ∀ (port path name : String) (number : Int) (files : Folder Bytes),
          argument port = .ok number → files.place [] path = .ok name →
          (Protocol.goBackN.receive [port, path] files (datagrams.map some)).written =
            some (name, (Receiver.loop datagrams).state.written) := by
  refine ⟨numberedPackets file, (filePackets_eq_ok_iff file _).mpr ⟨hfits, rfl⟩, ?_⟩
  intro datagrams hdatagrams
  have h : Receiver.Advances file {} datagrams (Receiver.loop datagrams) :=
    (Receiver.inOrder_start file).advances hfits datagrams hdatagrams
  have hleft : (Receiver.loop datagrams).waiting = false ↔
      (Receiver.loop datagrams).state.ended = true := by
    rw [h.waiting, Bool.not_eq_false']
  refine ⟨h.fault, h.state.written, fun k hk => ?_, fun hnot => ?_, ?_, ?_⟩
  · exact h.reached k (by rwa [length_numberedPackets] at hk)
  · exact h.state.written_eq (hleft.mp hnot)
  · have hall := h.reached (packetCount file) (Nat.le_refl _)
    rw [take_of_length_le (Nat.le_of_eq (length_numberedPackets file))] at hall
    rw [hleft, h.state.ended, Nat.le_antisymm_iff, and_iff_right h.state.expected]
    exact hall
  · intro port path name number files hport hplace
    simp only [Protocol.receive, hport, orFailing, bind, Except.bind, pure, Except.pure,
      Served.session, hplace]
    split
    · rfl
    · split <;> rfl

/-- Of two packets the second comes first, then the first one twice, then the second one again: the
file is written. If the second one comes alone, nothing is. -/
theorem written_in_order_twoPackets :
    (Receiver.loop [numberedPacket twoPackets 1, numberedPacket twoPackets 0,
        numberedPacket twoPackets 0, numberedPacket twoPackets 1]).state.written = twoPackets ∧
      (Receiver.loop [numberedPacket twoPackets 1]).state.written = [] := by
  have hfits : packetCount twoPackets ≤ 65536 := by
    rw [packetCount_twoPackets]
    decide
  obtain ⟨packets, hpackets, hserved⟩ := written_in_order hfits
  have hpackets : packets = [numberedPacket twoPackets 0, numberedPacket twoPackets 1] := by
    rw [((filePackets_eq_ok_iff twoPackets packets).mp hpackets).2, numberedPackets,
      packetCount_twoPackets]
    rfl
  subst hpackets
  constructor
  · obtain ⟨-, -, -, hwritten, hleft, -⟩ := hserved
      [numberedPacket twoPackets 1, numberedPacket twoPackets 0, numberedPacket twoPackets 0,
        numberedPacket twoPackets 1] (by simp)
    exact hwritten (hleft.mpr (.cons _ (.cons_cons _ (.cons _ (.cons_cons _ .slnil)))))
  · obtain ⟨-, hwritten, hcount, -⟩ := hserved [numberedPacket twoPackets 1] (by simp)
    have hnone : ¬ 1 ≤ (Receiver.loop [numberedPacket twoPackets 1]).state.expected := by
      rw [hcount 1 (by decide), take_one, List.head?_cons, Option.toList_some,
        singleton_sublist, mem_singleton]
      intro hsame
      cases numberedPacket_injective (by decide) (by decide) hsame
    rw [hwritten, Nat.lt_one_iff.mp (Nat.lt_of_not_le hnone), firstChunks_zero]

end GoBackN

/-! ## Announcing the end

One sender finds the end of its file by looking ahead, the others by dividing its length. -/

namespace Unconfirmed

variable {file : Bytes}

theorem sendAll_of_packetsFrom {number : Nat} {ps : List Piece} {packets : List Bytes}
    (h : packetsFrom number ps = .ok packets) : sendAll number ps = (packets, none) := by
  induction ps generalizing number packets with
  | nil =>
    cases h
    rfl
  | cons p rest ih =>
    obtain ⟨_, _, hpacket, hlater, h⟩ := of_bind₂ h
    cases h
    rw [sendAll, hpacket, ih hlater, sendBefore]

/-- A receiver fails on no packet, and it leaves its loop exactly if one with the mark comes. -/
theorem serve_numbered {datagrams : List Bytes} (h : ∀ d ∈ datagrams, d ∈ numberedPackets file)
    {r : Receiver} (hr : r.ended = false) :
    (serve Receiver.take (·.ended) (datagrams.map some) r).fault = none ∧
      ((serve Receiver.take (·.ended) (datagrams.map some) r).waiting = false ↔
        ∃ d ∈ datagrams, markOf d = .ok 1) := by
  induction datagrams generalizing r with
  | nil => simp [serve_nil hr]
  | cons d datagrams ih =>
    obtain ⟨hd, hrest⟩ := forall_mem_cons.mp h
    obtain ⟨i, -, rfl⟩ := mem_map.mp hd
    obtain ⟨reaction, htake, hended⟩ : ∃ reaction,
        r.take ((numberedPacket file i).take 1027) = .ok reaction ∧
          reaction.state.ended = decide (i + 1 = packetCount file) := by
      simp only [Receiver.take, take_numberedPacket, markOf_numberedPacket, bind, Except.bind,
        pure, Except.pure]
      split <;> exact ⟨_, rfl, by simp⟩
    rw [map_cons, serve_cons hr htake]
    simp only [mem_cons, exists_eq_or_imp, markOf_numberedPacket]
    by_cases hlast : i + 1 = packetCount file
    · rw [serve_of_ended (by simpa [hlast] using hended)]
      simp [hlast]
    · simpa [hlast] using ih hrest (by simpa [hlast] using hended)

/-- The last packet of a file, and no other one, carries the mark. Looking ahead gives the same
packets but for an empty file, of which nothing is sent; and who gets all that is sent, in whatever
order and how often, leaves the loop exactly if the file is not empty. -/
theorem announced_iff_ne_nil (hfits : packetCount file ≤ 65536) :
    ∃ packets, filePackets file = .ok packets ∧ packets ≠ [] ∧
      sendAll 0 (pieces pieceSize file) = (if file = [] then [] else packets, none) ∧
      (∀ i p, packets[i]? = some p → markOf p = .ok (if i + 1 = packets.length then 1 else 0)) ∧
      ∀ datagrams : List Bytes, (∀ d, d ∈ datagrams ↔ file ≠ [] ∧ d ∈ packets) →
        (serve Receiver.take (·.ended) (datagrams.map some) {}).fault = none ∧
        ((serve Receiver.take (·.ended) (datagrams.map some) {}).waiting = false ↔ file ≠ []) := by
  have hpos := packetCount_pos file
  have hpackets := (filePackets_eq_ok_iff file _).mpr ⟨hfits, rfl⟩
  refine ⟨_, hpackets, ne_nil_of_length_pos (by simpa using hpos), ?_, fun i p hp => ?_, ?_⟩
  · split
    · next hfile =>
      rw [hfile, pieces_eq_map_range]
      rfl
    · next hfile =>
      have hcount := mt (chunkCount_eq_zero_iff file).mp hfile
      rw [filePackets, chunks_pieceSize, show packetCount file = chunkCount file from
        Nat.max_eq_left (Nat.one_le_iff_ne_zero.mpr hcount), ← pieces_eq_map_range] at hpackets
      exact sendAll_of_packetsFrom hpackets
  · rw [getElem?_numberedPackets] at hp
    split at hp <;> cases hp
    rw [markOf_numberedPacket, length_numberedPackets]
  · intro datagrams hall
    obtain ⟨hfault, hleft⟩ := serve_numbered (fun d hd => ((hall d).mp hd).2) rfl (r := {})
    refine ⟨hfault, hleft.trans ⟨fun h => h.elim fun d hd => ((hall d).mp hd.1).1, fun hfile => ?_⟩⟩
    refine ⟨numberedPacket file (packetCount file - 1), (hall _).mpr ⟨hfile, ?_⟩, ?_⟩
    · exact mem_map_of_mem (mem_range.mpr (by omega))
    · rw [markOf_numberedPacket, if_pos (by omega)]

theorem announced_iff_ne_nil_twoPackets : ∃ packets, filePackets twoPackets = .ok packets ∧
    sendAll 0 (pieces pieceSize twoPackets) = (packets, none) := by
  obtain ⟨packets, hpackets, -, hsent, -⟩ :=
    announced_iff_ne_nil (packetCount_twoPackets ▸ by decide : packetCount twoPackets ≤ 65536)
  exact ⟨packets, hpackets, hsent⟩

theorem nothing_announced : sendAll 0 (pieces pieceSize []) = ([], none) ∧
    filePackets [] = .ok [[0, 0, 1]] := by
  rw [pieces_eq_map_range]
  exact ⟨rfl, rfl⟩

end Unconfirmed

end Practicum.Net.Transfer
