import Mathlib.Data.List.InsertIdx
import Practicum.Net.Transfer.GoBackN
import Practicum.Proofs.Transfer.Crew

/-!
# The window of go back N

A sender with its threads and a receiver are joined by two channels that keep the order of what they
carry and may lose any of it. The receiver answers a packet that it does not expect by the number
that it confirmed last, or zero: until the first packet is written the window may stand one packet
too far, and from then on never beyond what is written. The window overtakes the receiver in some
run exactly if the sender can have two packets under way.
-/

namespace Practicum.Net.Transfer.GoBackN

open List Sender Receiver

/-! ## The two programs and their channels -/

structure Link where
  crew : Crew Sender
  receiver : Receiver := {}
  data : List Bytes := []
  acks : List Bytes := []
  /-- The number of acknowledgements that the receiver has sent after its end. -/
  parted : Nat := 0

namespace Link

def start (window limit : Int) (count : Nat) : Link :=
  { crew := { sender := .start window limit count } }

inductive Step (packets : List Bytes) : Link → Link → Prop
  | loseData (s : Link) (i : Nat) : Step packets s { s with data := s.data.eraseIdx i }
  | loseAck (s : Link) (i : Nat) : Step packets s { s with acks := s.acks.eraseIdx i }
  | work (s : Link) (crew : Crew Sender) (numbers : List Nat)
      (hcrew : Crew.Step threads s.crew none crew numbers) :
      Step packets s { s with crew, data := s.data ++ packetsAt packets numbers }
  | hear (s : Link) (ack : Bytes) (rest : List Bytes) (crew : Crew Sender) (numbers : List Nat)
      (hacks : s.acks = ack :: rest)
      (hcrew : Crew.Step threads s.crew (some (Bytes.toNat (ack.take 2))) crew numbers) :
      Step packets s { s with crew, data := s.data ++ packetsAt packets numbers, acks := rest }
  | take (s : Link) (packet : Bytes) (rest : List Bytes) (reaction : Reaction Receiver)
      (hr : s.receiver.ended = false) (hdata : s.data = packet :: rest)
      (htake : s.receiver.take (packet.take 1027) = .ok reaction) :
      Step packets s { s with
        receiver := reaction.state, data := rest, acks := s.acks ++ reaction.sent }
  | part (s : Link) (farewell : List Bytes) (ack : Bytes) (hr : s.receiver.ended = true)
      (hfarewell : s.receiver.farewell = .ok farewell) (hack : farewell[s.parted]? = some ack) :
      Step packets s { s with acks := s.acks ++ [ack], parted := s.parted + 1 }

def Reachable (file : Bytes) (window limit : Int) (s : Link) : Prop :=
  RunsTo Step (start window limit) file s

end Link

/-! ## One step of the sender -/

/-- What a step of a thread can do to the sender: the window moves only when a number is heard, and
only packets that the window has room for are sent. -/
structure Moves (heard : Option Nat) (s s' : Sender) (numbers : List Nat) : Prop where
  count : s'.count = s.count
  window : s'.window = s.window
  base : s'.base = s.base ∨ ∃ n, heard = some n ∧ s'.base = n + 1
  next : s'.next = s.next ∨ s'.next = s.next + 1 ∧ (s.next : Int) < min (s.base + s.window) s.count
  numbers : ∀ i ∈ numbers, i < s'.next

variable {heard : Option Nat} {numbers : List Nat} {packet : Bytes} {crew : Crew Sender}
  {rest : List Bytes} {k : Nat} {file : Bytes} {s : Link} {window : Int}

theorem Moves.unmoved {s : Sender} : Moves heard s s [] where
  count := rfl
  window := rfl
  base := .inl rfl
  next := .inl rfl
  numbers := by simp

theorem Sender.moves_sendNext (now : Int) (s : Sender) :
    Moves none s (s.sendNext now).1 (s.sendNext now).2 := by
  by_cases hroom : (s.next : Int) < min (s.base + s.window) s.count
  · simp only [sendNext, if_pos hroom]
    exact ⟨rfl, rfl, .inl rfl, .inr ⟨rfl, hroom⟩, by simp⟩
  · simp only [sendNext, if_neg hroom]
    exact Moves.unmoved

theorem Sender.moves_resend (now : Int) (s : Sender) :
    Moves none s (s.resend now).1 (s.resend now).2 := by
  simp only [resend]
  split
  · split
    · refine ⟨rfl, rfl, .inl rfl, .inl rfl, forall_mem_map.mpr fun k hk => ?_⟩
      have hk := mem_range.mp hk
      show s.base + k < s.next
      omega
    · exact Moves.unmoved
  · exact Moves.unmoved

theorem Sender.state_listen_some {s : Sender} (h : s.finished = false) (now : Int)
    (number : Nat) : (listen now [some number] s).state = s.acknowledge now number := by
  simp only [listen, h, Bool.false_eq_true, if_false]
  split <;> rfl

theorem Sender.moves_listen (now : Int) (answer : Option Nat) (s : Sender) :
    Moves answer s (listen now [answer] s).state [] := by
  cases hfinished : s.finished with
  | true =>
    have hstate : (listen now [answer] s).state = s := by
      cases answer <;> simp [listen, hfinished]
    rw [hstate]
    exact Moves.unmoved
  | false =>
    cases answer with
    | none =>
      have hstate : (listen now [none] s).state = s := by
        simp [listen, hfinished]
      rw [hstate]
      exact Moves.unmoved
    | some number =>
      rw [state_listen_some hfinished]
      exact ⟨rfl, rfl, .inr ⟨number, rfl, rfl⟩, .inl rfl, by simp⟩

theorem moves_of_step {c c' : Crew Sender} (h : Crew.Step threads c heard c' numbers) :
    Moves heard c.sender c'.sender numbers := by
  cases h with
  | testSending | testResending | testListening => exact Moves.unmoved
  | send now h => exact moves_sendNext now c.sender
  | resend now h => exact moves_resend now c.sender
  | silence now h => exact moves_listen now none c.sender
  | hear now number h => exact moves_listen now (some number) c.sender

/-! ## One step of the receiver -/

theorem Receiver.take_expected (r : Receiver) (file : Bytes) (h : r.expected < 65536) :
    ∃ printed, r.take (numberedPacket file r.expected) = .ok {
        state := {
          expected := r.expected + 1
          confirmed := r.expected
          written := r.written ++ chunk file r.expected
          ended := decide (r.expected + 1 = packetCount file) }
        sent := [ackBytes r.expected]
        printed } := by
  by_cases hlast : r.expected + 1 = packetCount file <;>
    simp [take, markOf_numberedPacket, numberOf_numberedPacket file h,
      dataOf_numberedPacket, bind, Except.bind, pure, Except.pure]

theorem Receiver.take_other (r : Receiver) (file : Bytes) {i : Nat} (h : i < 65536)
    (hi : i ≠ r.expected) :
    r.take (numberedPacket file i) = .ok { state := r, sent := [ackBytes r.confirmed] } := by
  simp [take, markOf_numberedPacket, numberOf_numberedPacket file h, hi, bind,
    Except.bind, pure, Except.pure]

namespace Receiver

/-- A receiver that got packets of a file only: it has written the chunks before the one it expects,
and has ended if there are no more. -/
structure InOrder (file : Bytes) (r : Receiver) : Prop where
  written : r.written = firstChunks file r.expected
  expected : r.expected ≤ packetCount file
  ended : r.ended = true ↔ r.expected = packetCount file

theorem inOrder_start (file : Bytes) : InOrder file {} where
  written := rfl
  expected := Nat.zero_le _
  ended := by
    have hpos := packetCount_pos file
    simp only [Bool.false_eq_true, false_iff]
    omega

variable {r : Receiver}

theorem InOrder.expected_lt (h : r.InOrder file) (hended : r.ended = false) :
    r.expected < packetCount file := by
  refine Nat.lt_of_le_of_ne h.expected fun hlast => ?_
  rw [h.ended.mpr hlast] at hended
  cases hended

theorem InOrder.next (h : r.InOrder file) (hlt : r.expected < packetCount file) (confirmed : Nat) :
    InOrder file {
      expected := r.expected + 1
      confirmed
      written := r.written ++ chunk file r.expected
      ended := decide (r.expected + 1 = packetCount file) } :=
  ⟨by rw [h.written, firstChunks_succ], hlt, by simp⟩

end Receiver

/-! ## What every run keeps -/

/-- The number that a receiver may have confirmed when it expects another one: a number before it,
or zero if it expects the first packet. -/
def Confirmable (expected i : Nat) : Prop :=
  i + 1 ≤ max expected 1

/-- The receiver got packets of the file only, what is under way are packets of the file and answers
that the receiver may give, and the window stands where an answer may have moved it. After the
receiver's end its answers no longer matter. -/
structure Consistent (file : Bytes) (s : Link) : Prop where
  count : s.crew.sender.count = packetCount file
  next : s.crew.sender.next ≤ packetCount file
  data : ∀ packet ∈ s.data, ∃ i < packetCount file, packet = numberedPacket file i
  receiver : s.receiver.InOrder file
  confirmed : Confirmable s.receiver.expected s.receiver.confirmed
  base : s.receiver.ended = false → s.crew.sender.base ≤ max s.receiver.expected 1
  acks : s.receiver.ended = false →
    ∀ ack ∈ s.acks, ∃ i, Confirmable s.receiver.expected i ∧ ack = ackBytes i

namespace Consistent

theorem start (file : Bytes) (window limit : Int) :
    Consistent file (Link.start window limit (packetCount file)) where
  count := rfl
  next := Nat.zero_le _
  data := by simp [Link.start]
  receiver := inOrder_start file
  confirmed := Nat.le_max_right _ _
  base := fun _ => Nat.zero_le _
  acks := by simp [Link.start]

section
variable (h : Consistent file s)
include h

/-- The network may lose what it carries. -/
theorem carries {data acks : List Bytes} (hdata : data ⊆ s.data) (hacks : acks ⊆ s.acks) :
    Consistent file { s with data, acks } :=
  { h with
    data := fun packet hp => h.data packet (hdata hp)
    acks := fun hended ack ha => h.acks hended ack (hacks ha) }

theorem sent {sender : Sender} (hmoves : Moves heard s.crew.sender sender numbers) :
    sender.next ≤ packetCount file ∧ ∀ packet ∈ s.data ++ packetsAt (numberedPackets file) numbers,
        ∃ i < packetCount file, packet = numberedPacket file i := by
  have hcount := h.count
  have hnext := h.next
  refine ⟨?_, ?_⟩
  · rcases hmoves.next with hsame | ⟨hone, hroom⟩ <;> omega
  · intro packet hp
    rcases mem_append.mp hp with hp | hp
    · exact h.data packet hp
    · obtain ⟨i, -, hi, rfl⟩ := mem_packetsAt.mp hp
      exact ⟨i, hi, rfl⟩

theorem work (hmoves : Moves heard s.crew.sender crew.sender numbers)
    (hheard : s.receiver.ended = false → ∀ n ∈ heard, Confirmable s.receiver.expected n) :
    Consistent file
      { s with crew, data := s.data ++ packetsAt (numberedPackets file) numbers } := by
  obtain ⟨hnext, hdata⟩ := h.sent hmoves
  refine { h with count := hmoves.count.trans h.count, next := hnext, data := hdata, base := ?_ }
  intro hended
  rcases hmoves.base with hsame | ⟨n, rfl, hmoved⟩
  · exact Nat.le_trans (Nat.le_of_eq hsame) (h.base hended)
  · exact Nat.le_trans (Nat.le_of_eq hmoved) (hheard hended n rfl)

variable (hfits : packetCount file ≤ 65536)
include hfits

theorem hear {ack : Bytes} (hacks : s.acks = ack :: rest)
    (hmoves : Moves (some (Bytes.toNat (ack.take 2))) s.crew.sender crew.sender numbers) :
    Consistent file
      { s with crew, data := s.data ++ packetsAt (numberedPackets file) numbers, acks := rest } := by
  have hrest : rest ⊆ s.acks := hacks ▸ subset_cons_self ack rest
  apply (h.carries (Subset.refl _) hrest).work hmoves
  intro hended n hn
  obtain ⟨i, hi, rfl⟩ := h.acks hended ack (hacks ▸ mem_cons_self)
  have hexpected := h.receiver.expected_lt hended
  have hlt : i < 65536 := by
    simp only [Confirmable] at hi
    omega
  rw [toNat_ackBytes hlt, Option.mem_some_iff] at hn
  exact hn ▸ hi

theorem take (hended : s.receiver.ended = false) (hdata : s.data = packet :: rest) :
    ∃ reaction, s.receiver.take (packet.take 1027) = .ok reaction ∧ Consistent file { s with
        receiver := reaction.state, data := rest, acks := s.acks ++ reaction.sent } := by
  obtain ⟨i, _, rfl⟩ := h.data packet (hdata ▸ mem_cons_self)
  have hexpected := h.receiver.expected_lt hended
  have hrest : ∀ p ∈ rest, ∃ i < packetCount file, p = numberedPacket file i :=
    fun p hp => h.data p (hdata ▸ mem_cons_of_mem _ hp)
  rw [take_numberedPacket]
  by_cases hnumber : i = s.receiver.expected
  · subst hnumber
    obtain ⟨_, htake⟩ := s.receiver.take_expected file (by omega)
    refine ⟨_, htake, ?_⟩
    refine {
      count := h.count, next := h.next, data := hrest, receiver := h.receiver.next hexpected _
      confirmed := Nat.le_max_left _ _, base := ?_, acks := ?_ }
    · intro _
      have := h.base hended
      show s.crew.sender.base ≤ max (s.receiver.expected + 1) 1
      omega
    · intro _ ack ha
      rcases mem_append.mp ha with ha | ha
      · obtain ⟨k, hk, rfl⟩ := h.acks hended ack ha
        refine ⟨k, ?_, rfl⟩
        simp only [Confirmable] at hk ⊢
        omega
      · exact ⟨s.receiver.expected, Nat.le_max_left _ _, mem_singleton.mp ha⟩
  · have htake := s.receiver.take_other file (by omega) hnumber
    refine ⟨_, htake, ?_⟩
    refine { h with data := hrest, acks := ?_ }
    intro _ ack ha
    rcases mem_append.mp ha with ha | ha
    · exact h.acks hended ack ha
    · exact ⟨s.receiver.confirmed, h.confirmed, mem_singleton.mp ha⟩

theorem step {t : Link} (hst : Link.Step (numberedPackets file) s t) : Consistent file t := by
  cases hst with
  | loseData i => exact h.carries (eraseIdx_subset ..) (Subset.refl _)
  | loseAck i => exact h.carries (Subset.refl _) (eraseIdx_subset ..)
  | work crew numbers hcrew => exact h.work (moves_of_step hcrew) (by simp)
  | hear ack rest crew numbers hacks hcrew => exact h.hear hfits hacks (moves_of_step hcrew)
  | take _ rest reaction hr hdata htake =>
    obtain ⟨reaction', htake', hnext⟩ := h.take hfits hr hdata
    obtain rfl : reaction' = reaction := by simpa [htake] using htake'.symm
    exact hnext
  | part _ ack hr _ _ =>
    exact { h with acks := by simp [hr] }

end

end Consistent

theorem Link.Reachable.consistent {limit : Int} (h : Link.Reachable file window limit s) :
    Consistent file s :=
  RunsTo.invariant h (Consistent.start file window limit) fun _ _ hs ih hst => ih.step hs.fits hst

/-! ## One packet at a time -/

/-- Until the first packet is written only that packet has been sent, and nothing was answered. -/
structure Unanswered (file : Bytes) (window : Int) (s : Link) : Prop where
  window : s.crew.sender.window = window
  data : s.receiver.expected = 0 → ∀ packet ∈ s.data, packet = numberedPacket file 0
  acks : s.receiver.expected = 0 → s.acks = []
  base : s.receiver.expected = 0 → s.crew.sender.base = 0
  next : s.receiver.expected = 0 → s.crew.sender.next ≤ 1

namespace Unanswered

theorem of_answered (hwindow : s.crew.sender.window = window) (h : s.receiver.expected ≠ 0) :
    Unanswered file window s :=
  ⟨hwindow, fun h0 => absurd h0 h, fun h0 => absurd h0 h, fun h0 => absurd h0 h,
    fun h0 => absurd h0 h⟩

variable (h : Unanswered file window s) (hs : Consistent file s)
include h hs

theorem work (hnarrow : window ≤ 1 ∨ packetCount file ≤ 1)
    (hmoves : Moves none s.crew.sender crew.sender numbers) : Unanswered file window
      { s with crew, data := s.data ++ packetsAt (numberedPackets file) numbers } := by
  have hbase : s.receiver.expected = 0 → crew.sender.base = 0 := by
    intro hexpected
    rcases hmoves.base with hsame | ⟨n, hn, -⟩
    · exact hsame.trans (h.base hexpected)
    · simp at hn
  have hnext : s.receiver.expected = 0 → crew.sender.next ≤ 1 := by
    intro hexpected
    have hbase := h.base hexpected
    have hwindow := h.window
    have hcount := hs.count
    rcases hmoves.next with hsame | ⟨hone, _⟩
    · exact Nat.le_trans (Nat.le_of_eq hsame) (h.next hexpected)
    · omega
  refine ⟨hmoves.window.trans h.window, ?_, h.acks, hbase, hnext⟩
  intro hexpected packet hp
  rcases mem_append.mp hp with hp | hp
  · exact h.data hexpected packet hp
  obtain ⟨i, hi, -, rfl⟩ := mem_packetsAt.mp hp
  have hlt := hmoves.numbers i hi
  have hone := hnext hexpected
  obtain rfl : i = 0 := by omega
  rfl

theorem take (hfits : packetCount file ≤ 65536) (hdata : s.data = packet :: rest)
    {reaction : Reaction Receiver} (htake : s.receiver.take (packet.take 1027) = .ok reaction) :
    Unanswered file window { s with
      receiver := reaction.state, data := rest, acks := s.acks ++ reaction.sent } := by
  refine of_answered h.window ?_
  obtain ⟨i, _, rfl⟩ := hs.data packet (hdata ▸ mem_cons_self)
  rw [take_numberedPacket] at htake
  by_cases hnumber : i = s.receiver.expected
  · obtain ⟨_, htake'⟩ := s.receiver.take_expected file (by omega)
    rw [hnumber, htake'] at htake
    injection htake with hreaction
    rw [← hreaction]
    exact Nat.succ_ne_zero _
  · rw [s.receiver.take_other file (by omega) hnumber] at htake
    injection htake with hreaction
    rw [← hreaction]
    intro hexpected
    have hfirst := h.data hexpected (numberedPacket file i) (hdata ▸ mem_cons_self)
    have hzero := numberedPacket_injective (by omega) (by omega) hfirst
    exact hnumber (hzero.trans hexpected.symm)

theorem step {t : Link} (hfits : packetCount file ≤ 65536)
    (hnarrow : window ≤ 1 ∨ packetCount file ≤ 1)
    (hst : Link.Step (numberedPackets file) s t) : Unanswered file window t := by
  cases hst with
  | loseData i =>
    exact { h with data := fun h0 packet hp => h.data h0 packet (mem_of_mem_eraseIdx hp) }
  | loseAck i =>
    refine { h with acks := fun h0 => ?_ }
    rw [h.acks h0, eraseIdx_nil]
  | work crew numbers hcrew => exact h.work hs hnarrow (moves_of_step hcrew)
  | hear ack rest crew numbers hacks hcrew =>
    refine of_answered ((moves_of_step hcrew).window.trans h.window) fun h0 => ?_
    rw [h.acks h0] at hacks
    cases hacks
  | take packet rest _ hr hdata htake => exact h.take hs hfits hdata htake
  | part _ ack hr _ _ =>
    have hpos := packetCount_pos file
    have hlast := hs.receiver.ended.mp hr
    exact of_answered h.window (show s.receiver.expected ≠ 0 by omega)

end Unanswered

theorem Link.Reachable.unanswered {limit : Int} (hnarrow : window ≤ 1 ∨ packetCount file ≤ 1)
    (h : Link.Reachable file window limit s) : Unanswered file window s := by
  refine RunsTo.invariant h ?_ fun s t hs ih hst => ?_
  · exact ⟨rfl, fun _ => by simp [Link.start], fun _ => rfl, fun _ => rfl, fun _ => Nat.zero_le _⟩
  · exact ih.step (Link.Reachable.consistent hs) hs.fits hnarrow hst

/-! ## Two packets at a time -/

/-- The receiver has taken no packet, and the sender has sent its first packets in a row and waits
for an answer. -/
structure Launched (file : Bytes) (window : Int) (k : Nat) (s : Link) : Prop where
  count : s.crew.sender.count = packetCount file
  window : s.crew.sender.window = window
  base : s.crew.sender.base = 0
  next : s.crew.sender.next = k
  sending : s.crew.sending = .testing
  listening : s.crew.listening = .testing
  receiver : s.receiver = {}
  data : s.data = (List.range k).map (numberedPacket file)
  acks : s.acks = []

theorem Launched.finished (h : Launched file window k s) : s.crew.sender.finished = false := by
  have hpos := packetCount_pos file
  simp only [Sender.finished, h.count, h.base, decide_eq_false_iff_not]
  omega

theorem Launched.send {limit : Int} (h : Launched file window k s)
    (hs : Link.Reachable file window limit s) (hwindow : (k : Int) < window)
    (hcount : k < packetCount file) :
    ∃ t, Link.Reachable file window limit t ∧ Launched file window (k + 1) t := by
  have htested := RunsTo.tail hs (.work s _ _ (.testSending s.crew h.sending))
  have hsent := htested.tail (.work _ _ _ (.send _ 0 (Phase.inside_of_not h.finished)))
  refine ⟨_, hsent, ?_⟩
  have hroom : (s.crew.sender.next : Int) <
      min (s.crew.sender.base + s.crew.sender.window) s.crew.sender.count := by
    rw [h.next, h.window, h.count]
    omega
  have hsend : threads.sendNext 0 s.crew.sender = ({ s.crew.sender with
          next := s.crew.sender.next + 1
          timer := if s.crew.sender.base = s.crew.sender.next && s.crew.sender.timer.isNone then
            startTimer 0 else s.crew.sender.timer },
        [s.crew.sender.next]) :=
    if_pos hroom
  constructor
  · simp [hsend, h.count]
  · simp [hsend, h.window]
  · simp [hsend, h.base]
  · simp [hsend, h.next]
  · rfl
  · exact h.listening
  · exact h.receiver
  · simp [hsend, h.next, h.data, packetsAt_singleton hcount, range_succ]
  · exact h.acks

/-- If the window and the file have room for two packets, the window can overtake the receiver: the
first packet is lost, and the second one is answered by the number of the first. -/
theorem exists_overtaking (limit : Int) (hfits : packetCount file ≤ 65536) (hwindow : 1 < window)
    (hcount : 1 < packetCount file) :
    ∃ s, Link.Reachable file window limit s ∧ s.receiver.ended = false ∧
      s.receiver.expected = 0 ∧ s.crew.sender.base = 1 := by
  have hstart : Link.Reachable file window limit (.start window limit (packetCount file)) :=
    RunsTo.refl hfits
  have hlaunched0 : Launched file window 0 (.start window limit (packetCount file)) :=
    ⟨rfl, rfl, rfl, rfl, rfl, rfl, rfl, rfl, rfl⟩
  obtain ⟨_, hs1, hlaunched1⟩ :=
    hlaunched0.send hstart (Int.lt_trans Int.zero_lt_one hwindow) (by omega)
  obtain ⟨s, hs, h⟩ := hlaunched1.send hs1 hwindow hcount
  have hlost := RunsTo.tail hs (.loseData s 0)
  have hdata : s.data.eraseIdx 0 = [numberedPacket file 1] := by
    rw [h.data]
    rfl
  have htake : s.receiver.take ((numberedPacket file 1).take 1027) =
      .ok { state := s.receiver, sent := [ackBytes 0] } := by
    rw [take_numberedPacket, h.receiver]
    exact take_other {} file (by omega) (by decide)
  have htaken := hlost.tail (.take _ _ [] _ (by rw [h.receiver]) hdata htake)
  have htested := htaken.tail (.work _ _ _ (.testListening _ h.listening))
  have hheard := htested.tail
    (.hear _ (ackBytes 0) [] _ _ (by simp [h.acks]) (.hear _ 0 _ (Phase.inside_of_not h.finished)))
  refine ⟨_, hheard, by simp [h.receiver], by simp [h.receiver], ?_⟩
  show (listen 0 [some (Bytes.toNat ((ackBytes 0).take 2))] s.crew.sender).state.base = 1
  rw [state_listen_some h.finished]
  rfl

/-! ## The window and the receiver -/

/-- The receiver has always written the chunks before the one it expects. Until it has ended, the
window of the sender is not beyond that chunk, or it stands at the second packet while the first is
not written. The window overtakes the receiver in no run exactly if never two packets can be under
way. -/
theorem base_le_expected_iff {file : Bytes} {packets : List Bytes} {window limit : Int}
    (hpackets : filePackets file = .ok packets) :
    (∀ s, Link.Reachable file window limit s →
      s.receiver.written = firstChunks file s.receiver.expected ∧
      (s.receiver.ended = false → s.crew.sender.base ≤ max s.receiver.expected 1)) ∧
    ((∀ s, Link.Reachable file window limit s → s.receiver.ended = false →
        s.crew.sender.base ≤ s.receiver.expected) ↔
      window ≤ 1 ∨ packets.length ≤ 1) := by
  obtain ⟨hfits, rfl⟩ := (filePackets_eq_ok_iff file packets).mp hpackets
  rw [length_numberedPackets]
  refine ⟨fun s hs => ⟨hs.consistent.receiver.written, hs.consistent.base⟩, ?_, ?_⟩
  · intro hnever
    by_contra hwide
    obtain ⟨s, hs, hended, hexpected, hbase⟩ :=
      exists_overtaking limit hfits (by omega : 1 < window) (by omega)
    have hle := hnever s hs hended
    omega
  · intro hnarrow s hs hended
    have hbase := hs.consistent.base hended
    by_cases hexpected : s.receiver.expected = 0
    · rw [(hs.unanswered hnarrow).base hexpected]
      exact Nat.zero_le _
    · omega

/-- With a window of one packet the sender never overtakes the receiver, with a window of two it
does. -/
theorem base_le_expected_twoPackets :
    (∀ s, Link.Reachable twoPackets 1 100 s → s.receiver.ended = false →
      s.crew.sender.base ≤ s.receiver.expected) ∧
    ¬ ∀ s, Link.Reachable twoPackets 2 100 s → s.receiver.ended = false →
      s.crew.sender.base ≤ s.receiver.expected := by
  constructor
  · exact (base_le_expected_iff filePackets_twoPackets).2.mpr (.inl (by decide))
  · rw [(base_le_expected_iff filePackets_twoPackets).2, length_numberedPackets, packetCount_twoPackets]
    decide

/-- A run for a file of two packets with a window of two in which the first packet is lost, and yet
the sender takes it for acknowledged. -/
theorem overtaken_twoPackets : ∃ s, Link.Reachable twoPackets 2 100 s ∧ s.receiver.ended = false ∧
      ¬ s.crew.sender.base ≤ s.receiver.expected := by
  obtain ⟨s, hs, hended, hexpected, hbase⟩ :=
    exists_overtaking 100 (by rw [packetCount_twoPackets]; decide) (by decide : (1 : Int) < 2)
      (by rw [packetCount_twoPackets]; decide)
  exact ⟨s, hs, hended, by omega⟩

end Practicum.Net.Transfer.GoBackN
