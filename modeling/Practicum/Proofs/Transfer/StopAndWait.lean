import Mathlib.Data.List.InsertIdx
import Mathlib.Data.Nat.Bits
import Mathlib.Logic.Relation
import Practicum.Net.Transfer.StopAndWait
import Practicum.Proofs.Transfer.FilePackets

/-!
# Safety of stop and wait

A sender and a receiver are joined by two channels that keep the order of what they carry and may
lose any of it, and the sender may run out of patience at any moment.

A bit cannot tell a packet from the one two places before it. What saves the protocol is the order
of the channels: the packets under way belong to the last two chunks and the answers under way to
the last two acceptances, and within a channel an older one never follows a newer one. This is the
invariant `Consistent`, in which packets and answers are numbered without bound.
-/

namespace Practicum.Net.Transfer.StopAndWait

open List Sender

/-! ## The two programs and their channels -/

structure Link where
  sender : Sender
  receiver : Receiver := {}
  data : List Bytes
  acks : List Bytes := []
  /-- The number of acknowledgements that the receiver has sent after its end. -/
  parted : Nat := 0

namespace Link

def start (file : Bytes) : Link :=
  { sender := .start file, data := (Sender.start file).current?.toList }

/-- The sender reacts to an answer or to silence. -/
def afterHearing (s : Link) (answer : Option Nat) : Link :=
  { s with sender := (s.sender.hear answer).1, data := s.data ++ (s.sender.hear answer).2 }

inductive Step : Link → Link → Prop
  | loseData (s : Link) (i : Nat) : Step s { s with data := s.data.eraseIdx i }
  | loseAck (s : Link) (i : Nat) : Step s { s with acks := s.acks.eraseIdx i }
  | silence (s : Link) (hs : s.sender.finished = false) : Step s (s.afterHearing none)
  | hear (s : Link) (ack : Bytes) (rest : List Bytes) (hs : s.sender.finished = false)
      (hacks : s.acks = ack :: rest) :
      Step s ({ s with acks := rest }.afterHearing (some (Bytes.toNat (ack.take 2))))
  | take (s : Link) (packet : Bytes) (rest : List Bytes) (reaction : Reaction Receiver)
      (hr : s.receiver.ended = false) (hdata : s.data = packet :: rest)
      (htake : s.receiver.take (packet.take 1027) = .ok reaction) :
      Step s { s with
        receiver := reaction.state, data := rest, acks := s.acks ++ reaction.sent }
  | part (s : Link) (ack : Bytes) (hr : s.receiver.ended = true)
      (hack : s.receiver.farewell[s.parted]? = some ack) :
      Step s { s with acks := s.acks ++ [ack], parted := s.parted + 1 }

def Reachable (file : Bytes) (s : Link) : Prop :=
  Relation.ReflTransGen Step (start file) s

end Link

/-! ## One step of the sender -/

theorem bitNumber_injective {a b : Bool} (h : bitNumber a = bitNumber b) : a = b := by
  cases a <;> cases b <;> simp [bitNumber] at h ⊢

theorem bitNumber_lt (b : Bool) : bitNumber b < 65536 := by
  cases b <;> decide

theorem Sender.hear_acknowledged (s : Sender) : s.hear (some (bitNumber s.bit)) =
      let next := { s with pending := s.pending.tail, bit := !s.bit }
      (next, next.current?.toList) := by
  simp [hear]

theorem Sender.hear_other (s : Sender) {answer : Option Nat} (h : answer ≠ some (bitNumber s.bit)) :
    s.hear answer = ({ s with retransmissions := s.retransmissions + 1 }, s.current?.toList) := by
  simp [hear, h, current?]

/-! ## One step of the receiver -/

theorem Receiver.take_expected (r : Receiver) {mark : Nat} (hmark : mark < 256) (data : Bytes) :
    ∃ printed, r.take (frame (bitNumber r.expected) mark data) = .ok {
        state := {
          expected := !r.expected
          accepted := r.accepted + 1
          written := r.written ++ data
          ended := decide (mark = 1) }
        sent := [ackBytes (bitNumber r.expected)]
        printed } := by
  refine ⟨"pkt " ++ toString (bitNumber r.expected) ++ ": received "
    ++ toString r.accepted ++ " KB\n", ?_⟩
  simp only [Receiver.take, markOf_frame _ hmark, numberOf_frame (bitNumber_lt _), dataOf_frame,
    bind, Except.bind, ne_eq, not_true_eq_false, if_false]
  rfl

theorem Receiver.take_other (r : Receiver) {mark : Nat} (hmark : mark < 256) (data : Bytes) :
    r.take (frame (bitNumber !r.expected) mark data) = .ok {
        state := { r with ended := decide (mark = 1) }
        sent := [ackBytes (bitNumber !r.expected)] } := by
  have hne : bitNumber (!r.expected) ≠ bitNumber r.expected := by
    intro h
    exact absurd (bitNumber_injective h) (by simp)
  simp only [Receiver.take, markOf_frame _ hmark, numberOf_frame (bitNumber_lt _), bind,
    Except.bind, ne_eq, hne, not_false_eq_true, if_true]
  rfl

/-! ## Packets and answers by their numbers -/

def markAt (file : Bytes) (i : Nat) : Nat :=
  if i + 1 = chunkCount file then 1 else 0

theorem markAt_lt (file : Bytes) (i : Nat) : markAt file i < 256 := by
  simp only [markAt]
  split <;> decide

theorem markAt_eq_one_iff (file : Bytes) (i : Nat) :
    markAt file i = 1 ↔ i + 1 = chunkCount file := by
  simp [markAt]

def packetAt (file : Bytes) (i : Nat) : Bytes :=
  frame (bitNumber i.bodd) (markAt file i) (chunk file i)

/-- The answer of a receiver that has accepted a number of chunks: the bit of the last of them. -/
def answerAfter (a : Nat) : Bytes :=
  ackBytes (bitNumber !a.bodd)

theorem take_packetAt (file : Bytes) (i : Nat) : (packetAt file i).take 1027 = packetAt file i :=
  take_frame (length_chunk_le file i) _ _

theorem toNat_answerAfter (a : Nat) : Bytes.toNat ((answerAfter a).take 2) = bitNumber !a.bodd := by
  cases h : a.bodd <;> simp only [answerAfter, h] <;> decide

variable {file : Bytes} {k : Nat}

theorem Sender.current?_of_pending {s : Sender}
    (hpending : s.pending = (pieces pieceSize file).drop k) (hbit : s.bit = k.bodd) :
    s.current?.toList = if k < chunkCount file then [packetAt file k] else [] := by
  rw [current?, hpending, hbit, pieces_eq_map_range, List.head?_drop]
  by_cases hk : k < chunkCount file
  · have hget : (List.range (chunkCount file))[k]? = some k := by simp [hk]
    rw [List.getElem?_map, hget, if_pos hk]
    by_cases hlast : k + 1 = chunkCount file <;> simp [packetAt, markAt, Piece.mark]
  · have hget : (List.range (chunkCount file))[k]? = none := by simp; omega
    rw [List.getElem?_map, hget, if_neg hk]
    rfl

theorem Sender.finished_eq_false_iff {s : Sender}
    (hpending : s.pending = (pieces pieceSize file).drop k) :
    s.finished = false ↔ k < chunkCount file := by
  rw [finished, hpending, pieces_eq_map_range]
  simp

/-! ## The invariant -/

/-- A channel holds packets or answers of such numbers, in their order. -/
def InOrder (f : Nat → Bytes) (P : Nat → Prop) (xs : List Bytes) : Prop :=
  ∃ is : List Nat, xs = is.map f ∧ is.Pairwise (· ≤ ·) ∧ ∀ i ∈ is, P i

namespace InOrder

variable {f : Nat → Bytes} {P P' : Nat → Prop} {x : Bytes} {xs : List Bytes}

theorem mono (h : InOrder f P xs) (hP : ∀ i, P i → P' i) : InOrder f P' xs := by
  obtain ⟨is, hxs, hsorted, his⟩ := h
  exact ⟨is, hxs, hsorted, fun i hi => hP i (his i hi)⟩

/-- What follows the first one is not older. -/
theorem of_cons (h : InOrder f P (x :: xs)) :
    ∃ i, x = f i ∧ P i ∧ InOrder f (fun j => i ≤ j ∧ P j) xs := by
  obtain ⟨is, his, hsorted, hrange⟩ := h
  obtain ⟨i, rest, rfl, rfl, rfl⟩ := map_eq_cons_iff.mp his.symm
  exact ⟨i, rfl, hrange i mem_cons_self, rest, rfl, hsorted.of_cons, fun j hj =>
    ⟨rel_of_pairwise_cons hsorted hj, hrange j (mem_cons_of_mem _ hj)⟩⟩

theorem eraseIdx (h : InOrder f P xs) (i : Nat) : InOrder f P (xs.eraseIdx i) := by
  obtain ⟨is, rfl, hsorted, hrange⟩ := h
  have hsub : List.Sublist (is.eraseIdx i) is := eraseIdx_sublist is i
  exact ⟨is.eraseIdx i, eraseIdx_map .., hsorted.sublist hsub, fun x hx => hrange x (hsub.subset hx)⟩

theorem concat (h : InOrder f P xs) (hrange : ∀ i, P i → P' i ∧ i ≤ k) (hk : P' k) :
    InOrder f P' (xs ++ [f k]) := by
  obtain ⟨is, rfl, hsorted, his⟩ := h
  refine ⟨is ++ [k], by simp, ?_, ?_⟩
  · rw [pairwise_append]
    refine ⟨hsorted, by simp, fun i hi _ hk => ?_⟩
    rw [mem_singleton.mp hk]
    exact (hrange i (his i hi)).2
  · intro i hi
    rcases mem_append.mp hi with hi | hi
    · exact (hrange i (his i hi)).1
    · rwa [mem_singleton.mp hi]

end InOrder

/-- The sender works on chunk `k`, the receiver has accepted `j` chunks, and the channels hold
packets and answers of the last two numbers only, in order. After the receiver's end its answers
no longer matter. -/
structure Consistent (file : Bytes) (s : Link) (k j : Nat) : Prop where
  pending : s.sender.pending = (pieces pieceSize file).drop k
  bit : s.sender.bit = k.bodd
  expected : s.receiver.expected = j.bodd
  accepted : s.receiver.accepted = j
  written : s.receiver.written = firstChunks file j
  ended : s.receiver.ended = true ↔ 0 < j ∧ j = chunkCount file
  lead : k ≤ j ∧ j ≤ k + 1 ∧ j ≤ chunkCount file
  data : InOrder (packetAt file) (fun i => j ≤ i + 1 ∧ i ≤ k ∧ i < chunkCount file) s.data
  acks : s.receiver.ended = false → InOrder answerAfter (fun a => k ≤ a ∧ a ≤ j) s.acks

/-- The receiver takes a packet, and the link is consistent then. -/
def Takes (file : Bytes) (s : Link) (packet : Bytes) (rest : List Bytes) (k j : Nat) : Prop :=
  ∃ reaction, s.receiver.take (packet.take 1027) = .ok reaction ∧ Consistent file { s with
    receiver := reaction.state, data := rest, acks := s.acks ++ reaction.sent } k j

namespace Consistent

variable {file : Bytes} {s : Link} {k j : Nat} {rest : List Bytes}

theorem start (file : Bytes) : Consistent file (Link.start file) 0 0 where
  pending := rfl
  bit := rfl
  expected := rfl
  accepted := rfl
  written := rfl
  ended := by simp [Link.start]
  lead := by omega
  data := by
    have hcurrent : (Sender.start file).current?.toList =
        if 0 < chunkCount file then [packetAt file 0] else [] :=
      Sender.current?_of_pending (k := 0) rfl rfl
    by_cases hpos : 0 < chunkCount file
    · exact ⟨[0], by simp [Link.start, hcurrent, hpos], by simp, by simpa using hpos⟩
    · exact ⟨[], by simp [Link.start, hcurrent, hpos], by simp, by simp⟩
  acks := fun _ => ⟨[], rfl, by simp, by simp⟩

section
variable (h : Consistent file s k j)
include h

/-- The sender may always send the packet of its chunk. -/
theorem send : Consistent file { s with data := s.data ++ s.sender.current?.toList } k j := by
  refine { h with data := ?_ }
  rw [current?_of_pending h.pending h.bit]
  by_cases hk : k < chunkCount file
  · rw [if_pos hk]
    exact h.data.concat (fun _ hi => ⟨hi, hi.2.1⟩) ⟨h.lead.2.1, Nat.le_refl k, hk⟩
  · rw [if_neg hk, append_nil]
    exact h.data

theorem retransmit {answer : Option Nat} (hanswer : answer ≠ some (bitNumber s.sender.bit)) :
    Consistent file (s.afterHearing answer) k j := by
  rw [Link.afterHearing, hear_other _ hanswer]
  exact { h.send with }

/-- The awaited answer makes the sender go on. By then the receiver has accepted the chunk, and
every older answer is gone. -/
theorem goOn (hj : j = k + 1)
    (hacks : s.receiver.ended = false → InOrder answerAfter (fun a => k + 1 ≤ a ∧ a ≤ j) s.acks) :
    Consistent file (s.afterHearing (some (bitNumber s.sender.bit))) (k + 1) j := by
  have hlead := h.lead
  -- The link with the sender moved on, and nothing sent yet.
  have moved : Consistent file { s with sender :=
          { s.sender with pending := s.sender.pending.tail, bit := !s.sender.bit } }
      (k + 1) j :=
    { h with
      pending := by rw [h.pending, tail_drop]
      bit := by rw [h.bit, Nat.bodd_succ]
      lead := by omega
      data := h.data.mono fun i hi => by omega
      acks := hacks }
  rw [Link.afterHearing, hear_acknowledged]
  exact moved.send

theorem hear (hs : s.sender.finished = false) {ack : Bytes} (hack : s.acks = ack :: rest) :
    ∃ k', Consistent file
      ({ s with acks := rest }.afterHearing (some (Bytes.toNat (ack.take 2)))) k' j := by
  have hk := (finished_eq_false_iff h.pending).mp hs
  have hlead := h.lead
  -- Without the answer that is heard, the link is as before.
  have shorter : Consistent file { s with acks := rest } k j := by
    refine { h with acks := fun hended => ?_ }
    obtain ⟨_, -, -, hrest⟩ := (hack ▸ h.acks hended).of_cons
    exact hrest.mono fun _ => And.right
  by_cases hanswer : Bytes.toNat (ack.take 2) = bitNumber s.sender.bit
  · refine ⟨k + 1, ?_⟩
    rw [hanswer]
    cases hended : s.receiver.ended with
    | true =>
      have hj := (h.ended.mp hended).2
      exact shorter.goOn (by omega) (by simp [hended])
    | false =>
      obtain ⟨a, rfl, ha, hrest⟩ := (hack ▸ h.acks hended).of_cons
      -- The answer has the sender's bit, so it is not the older one of the two.
      have hne : a ≠ k := by
        rintro rfl
        rw [toNat_answerAfter, h.bit] at hanswer
        exact absurd (bitNumber_injective hanswer) (by simp)
      exact shorter.goOn (by omega) fun _ => hrest.mono fun x hx => by omega
  · exact ⟨k, shorter.retransmit (by simpa using hanswer)⟩

theorem answer (hended : s.receiver.ended = false) {j' : Nat} (hj : j ≤ j') :
    InOrder answerAfter (fun a => k ≤ a ∧ a ≤ j') (s.acks ++ [answerAfter j']) := by
  have hlead := h.lead
  exact (h.acks hended).concat (fun a ha => by omega) (by omega)

theorem accept (hended : s.receiver.ended = false) (hj : j ≤ k ∧ j < chunkCount file)
    (hrest : InOrder (packetAt file) (fun i => j ≤ i ∧ i ≤ k ∧ i < chunkCount file) rest) :
    Takes file s (packetAt file j) rest k (j + 1) := by
  obtain ⟨_, htake⟩ := s.receiver.take_expected (markAt_lt file j) (chunk file j)
  rw [h.expected] at htake
  have hlead := h.lead
  refine ⟨_, (congrArg s.receiver.take (take_packetAt file j)).trans htake, ?_⟩
  refine { h with
    expected := by simp, accepted := by simp [h.accepted]
    written := by simp [h.written, firstChunks_succ], ended := ?_, lead := by omega
    data := hrest.mono fun i hi => by omega
    acks := fun _ => by simpa [answerAfter] using h.answer hended (Nat.le_succ j) }
  simp only [decide_eq_true_eq, markAt_eq_one_iff]
  omega

end

/-- A packet of the chunk before is answered and otherwise ignored. It carries no mark, since the
receiver has not ended. -/
theorem reject (h : Consistent file s k (j + 1)) (hended : s.receiver.ended = false)
    (hrest : InOrder (packetAt file) (fun i => j ≤ i ∧ i ≤ k ∧ i < chunkCount file) rest) :
    Takes file s (packetAt file j) rest k (j + 1) := by
  have htake := s.receiver.take_other (markAt_lt file j) (chunk file j)
  have hbit : (!s.receiver.expected) = j.bodd := by simp [h.expected]
  rw [hbit] at htake
  refine ⟨_, (congrArg s.receiver.take (take_packetAt file j)).trans htake, ?_⟩
  exact { h with
    ended := by simp [markAt_eq_one_iff]
    data := hrest.mono fun i hi => by omega
    acks := fun _ => by simpa [answerAfter] using h.answer hended (Nat.le_refl _) }

theorem take (h : Consistent file s k j) (hended : s.receiver.ended = false) {packet : Bytes}
    (hdata : s.data = packet :: rest) : ∃ j', Takes file s packet rest k j' := by
  obtain ⟨i, rfl, hi, hrest⟩ := (hdata ▸ h.data).of_cons
  have hlead := h.lead
  rcases (by omega : i = j ∨ i + 1 = j) with rfl | rfl
  · exact ⟨i + 1, h.accept hended hi.2 (hrest.mono fun x hx => by omega)⟩
  · exact ⟨i + 1, h.reject hended (hrest.mono fun x hx => by omega)⟩

theorem part (h : Consistent file s k j) (hended : s.receiver.ended = true) (ack : Bytes) :
    Consistent file { s with acks := s.acks ++ [ack], parted := s.parted + 1 } k j :=
  { h with acks := by simp [hended] }

theorem step {t : Link} (h : Consistent file s k j) (hst : Link.Step s t) :
    ∃ k' j', Consistent file t k' j' := by
  cases hst with
  | loseData i => exact ⟨k, j, { h with data := h.data.eraseIdx i }⟩
  | loseAck i => exact ⟨k, j, { h with acks := fun hended => (h.acks hended).eraseIdx i }⟩
  | silence hs => exact ⟨k, j, h.retransmit (by simp)⟩
  | hear ack rest hs hacks =>
    obtain ⟨k', hnext⟩ := h.hear hs hacks
    exact ⟨k', j, hnext⟩
  | take _ rest reaction hr hdata htake =>
    obtain ⟨j', reaction', htake', hnext⟩ := h.take hr hdata
    obtain rfl : reaction' = reaction := by simpa [htake] using htake'.symm
    exact ⟨k, j', hnext⟩
  | part ack hr _ => exact ⟨k, j, h.part hr ack⟩

end Consistent

theorem exists_consistent_of_reachable {s : Link} (h : Link.Reachable file s) :
    ∃ k j, Consistent file s k j := by
  induction h with
  | refl => exact ⟨0, 0, Consistent.start file⟩
  | tail _ hst ih =>
    obtain ⟨k, j, hs⟩ := ih
    exact hs.step hst

/-! ## Safety -/

/-- In every run the receiver can take whatever packet is under way, it has written the first
chunks of the file, each once and in order, and the sender works on a chunk only when all chunks
before it are written. The receiver ends only when all chunks are written, and when the last chunk
of the sender is acknowledged the file is written. -/
theorem stopAndWait_safe {file : Bytes} {s : Link} (h : Link.Reachable file s) :
    (∀ packet ∈ s.data.head?, s.receiver.ended = false →
      ∃ reaction, s.receiver.take (packet.take 1027) = .ok reaction) ∧
    s.receiver.accepted ≤ chunkCount file ∧
    s.receiver.written = firstChunks file s.receiver.accepted ∧
    (∃ k ≤ s.receiver.accepted, s.sender.pending = (pieces pieceSize file).drop k) ∧
    (s.receiver.ended = true → s.receiver.accepted = chunkCount file) ∧
    (s.sender.finished = true → s.receiver.written = file) := by
  obtain ⟨k, j, hs⟩ := exists_consistent_of_reachable h
  have hlead := hs.lead
  rw [hs.written, hs.accepted]
  refine ⟨?_, hlead.2.2, rfl, ⟨k, hlead.1, hs.pending⟩, fun hended => (hs.ended.mp hended).2, ?_⟩
  · intro packet hpacket hended
    obtain ⟨rest, hdata⟩ := List.head?_eq_some_iff.mp hpacket
    obtain ⟨_, reaction, htake, -⟩ := hs.take hended hdata
    exact ⟨reaction, htake⟩
  · intro hfinished
    have hk : ¬ k < chunkCount file := by
      rw [← Sender.finished_eq_false_iff hs.pending, hfinished]
      simp
    obtain rfl : j = chunkCount file := by omega
    exact firstChunks_chunkCount file

/-- A run for a file of one byte in which the first packet and the first answer are lost. -/
theorem stopAndWait_safe_lossy :
    ∃ s, Link.Reachable [7] s ∧ s.sender.finished = true ∧ s.receiver.written = [7] := by
  have hpieces : pieces pieceSize [7] = [([7], true)] := pieces_eq_map_range [7]
  have hstart : Link.start [7] =
      { sender := { pending := [([7], true)] }, data := [[0, 0, 1, 7]] } := by
    simp only [Link.start, Sender.start, hpieces]
    rfl
  have hwhole : List.take 1027 [0, 0, 1, 7] = frame (bitNumber false) 1 [7] :=
    take_of_length_le (by decide)
  obtain ⟨printed, htake⟩ := Receiver.take_expected {} (by decide : 1 < 256) [7]
  replace htake := (congrArg (Receiver.take {}) hwhole).trans htake
  have h₀ : Link.Reachable [7] (Link.start [7]) := .refl
  rw [hstart] at h₀
  have h₁ := h₀.tail (.loseData _ 0)
  have h₂ := h₁.tail (.silence _ rfl)
  have h₃ := h₂.tail (.take _ [0, 0, 1, 7] [] _ rfl rfl htake)
  have h₄ : Link.Reachable [7] {
      sender := { pending := [([7], true)], retransmissions := 1 }
      receiver := { expected := true, accepted := 1, written := [7], ended := true }
      data := [] } :=
    h₃.tail (.loseAck _ 0)
  have h₅ := h₄.tail (.part _ [0, 0] rfl (by decide))
  have h₆ := h₅.tail (.hear _ [0, 0] [] rfl rfl)
  exact ⟨_, h₆, rfl, (stopAndWait_safe h₆).2.2.2.2.2 rfl⟩

end Practicum.Net.Transfer.StopAndWait
