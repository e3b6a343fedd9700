import Practicum.Proofs.Transfer.Crew
import Practicum.Proofs.Transfer.Slots

/-!
# The end of selective repeat

A sender with its threads and a receiver are joined by a network that may lose, copy and reorder
what it carries. Whatever the sender counts as acknowledged the receiver holds, and the window of
the sender is never beyond that of the receiver. The sender stops when its last packet is
acknowledged. Of the last window any other packet may then be missing: the sender leaves nothing
behind in every run exactly if its window, or the file, has room for one packet only.
-/

namespace Practicum.Net.Transfer.SelectiveRepeat

open List Sender Subset RunsTo

variable {number i : Nat} {numbers : List Nat} {packet : Bytes} {crew : Crew Sender}
  {heard : Option Nat} {file : Bytes} {window : Int}

/-! ## The two programs and the network -/

structure Link where
  crew : Crew Sender
  receiver : Receiver
  data : List Bytes := []
  acks : List Bytes := []

namespace Link

def start (window limit : Int) (count : Nat) : Link :=
  { crew := { sender := .start window limit count }, receiver := .start window }

/-- One step of the two programs or of the network. A receiver that has ended still answers late
packets by their own numbers. -/
inductive Step (packets : List Bytes) : Link → Link → Prop
  | loseData (s : Link) (i : Nat) : Step packets s { s with data := s.data.eraseIdx i }
  | loseAck (s : Link) (i : Nat) : Step packets s { s with acks := s.acks.eraseIdx i }
  | copyData (s : Link) (packet : Bytes) (hdata : packet ∈ s.data) :
      Step packets s { s with data := packet :: s.data }
  | copyAck (s : Link) (ack : Bytes) (hacks : ack ∈ s.acks) :
      Step packets s { s with acks := ack :: s.acks }
  | work (s : Link) (crew : Crew Sender) (numbers : List Nat)
      (hcrew : Crew.Step threads s.crew none crew numbers) :
      Step packets s { s with crew, data := s.data ++ packetsAt packets numbers }
  | hear (s : Link) (i : Nat) (ack : Bytes) (crew : Crew Sender) (numbers : List Nat)
      (hack : s.acks[i]? = some ack)
      (hcrew : Crew.Step threads s.crew (some (Bytes.toNat (ack.take 2))) crew numbers) :
      Step packets s { s with
          crew, data := s.data ++ packetsAt packets numbers, acks := s.acks.eraseIdx i }
  | take (s : Link) (i : Nat) (packet : Bytes) (reaction : Reaction Receiver)
      (hr : s.receiver.ended = false) (hdata : s.data[i]? = some packet)
      (htake : s.receiver.take (packet.take 1027) = .ok reaction) :
      Step packets s { s with
        receiver := reaction.state, data := s.data.eraseIdx i, acks := s.acks ++ reaction.sent }
  | linger (s : Link) (i : Nat) (packet : Bytes) (hr : s.receiver.ended = true)
      (hdata : s.data[i]? = some packet) :
      Step packets s { s with data := s.data.eraseIdx i, acks := s.acks ++ [packet.take 2] }

def Reachable (file : Bytes) (window limit : Int) (s : Link) : Prop :=
  RunsTo Step (start window limit) file s

end Link

/-! ## One step of the sender -/

namespace Sender

def marks (s : Sender) : List Bool :=
  s.packets.map Flight.acked

def Acked (s : Sender) (i : Nat) : Prop :=
  s.marks[i]? = some true

variable {s : Sender}

theorem finished_iff {n : Nat} (h : s.marks.length = n + 1) : s.finished = true ↔ s.Acked n := by
  have hlast : s.packets.getLast?.map Flight.acked = s.marks[n]? := by
    rw [← List.getLast?_map, List.getLast?_eq_getElem?]
    simp only [marks] at h ⊢
    rw [h, Nat.add_sub_cancel]
  rw [finished, hlast, Acked]
  have hsome : n < s.marks.length := by omega
  rw [List.getElem?_eq_getElem hsome]
  simp

theorem not_acked_start (window limit : Int) (count i : Nat) :
    ¬ (start window limit count).Acked i := by
  intro hacked
  have hmarks : (start window limit count).marks = List.replicate count false := by
    simp [start, marks]
  rw [Acked, hmarks] at hacked
  cases eq_of_mem_replicate (mem_of_getElem? hacked)

/-- What a step of a thread that hears nothing can do to the sender: it sends packets that the
window has room for, and the window does not move. -/
structure Sends (s s' : Sender) (numbers : List Nat) : Prop where
  window : s'.window = s.window
  marks : s'.marks = s.marks
  base : s'.base = s.base
  numbers : ∀ i ∈ numbers, (i : Int) < s.base + s.window

theorem Sends.nothing : s.Sends s [] :=
  ⟨rfl, rfl, rfl, by simp⟩

theorem map_modify_of_comp_eq {α β : Type} (l : List α) (i : Nat) (f : α → α) (g : α → β)
    (h : ∀ a, g (f a) = g a) : (l.modify i f).map g = l.map g := by
  apply ext_getElem?
  intro j
  simp only [List.getElem?_map, List.getElem?_modify]
  cases l[j]? with
  | none => rfl
  | some a =>
    by_cases hj : i = j <;> simp [hj, h]

theorem sendNext_of_room (h : (s.next : Int) < min (s.base + s.window) s.packets.length)
    (now : Int) : (s.sendNext now).1.next = s.next + 1 ∧ (s.sendNext now).2 = [s.next] := by
  simp only [sendNext, if_pos h, and_self]

theorem sends_sendNext (now : Int) (s : Sender) :
    s.Sends (s.sendNext now).1 (s.sendNext now).2 := by
  by_cases hroom : (s.next : Int) < min (s.base + s.window) s.packets.length
  · simp only [sendNext, if_pos hroom]
    refine ⟨rfl, ?_, rfl, ?_⟩
    · apply map_modify_of_comp_eq
      intro f
      split <;> rfl
    · intro i hi
      rw [mem_singleton.mp hi]
      omega
  · simp only [sendNext, if_neg hroom]
    exact Sends.nothing

theorem map_foldl_modify_of_comp_eq {α β : Type} (is : List Nat) (l : List α) (f : α → α)
    (g : α → β) (h : ∀ a, g (f a) = g a) :
    (is.foldl (fun l i => l.modify i f) l).map g = l.map g := by
  induction is generalizing l with
  | nil => rfl
  | cons i is ih => rw [foldl_cons, ih, map_modify_of_comp_eq l i f g h]

theorem sends_resend (now : Int) (h : 0 ≤ s.window) :
    s.Sends (s.resend now).1 (s.resend now).2 := by
  refine ⟨rfl, map_foldl_modify_of_comp_eq _ _ _ _ fun _ => rfl, rfl, ?_⟩
  intro i hi
  have hwatched : i ∈ s.watched := mem_of_mem_filter hi
  have hstop : ¬ (s.base : Int) + s.window < 0 := by omega
  simp only [watched, if_neg hstop, mem_filter, Bool.and_eq_true, decide_eq_true_iff] at hwatched
  exact hwatched.2.2

/-- What an acknowledgement does to the sender: the packet is acknowledged, and unless the sender
has finished the window begins at the first packet that is not. -/
structure Hears (s s' : Sender) (number : Nat) : Prop where
  window : s'.window = s.window
  next : s'.next = s.next
  marks : s'.marks = s.marks.set number true
  stays : s'.finished = true → s'.base = s.base
  moves : s'.finished = false → s.base ≤ s'.base ∧
    (∀ i, s.base ≤ i → i < s'.base → s'.Acked i) ∧ ¬ s'.Acked s'.base

theorem findIdx_drop_acked (s : Sender) (base : Nat) :
    let first := base + (s.packets.drop base).findIdx fun f => !f.acked
    (∀ i, base ≤ i → i < first → s.Acked i) ∧ ¬ s.Acked first := by
  intro first
  constructor
  · intro i hle hlt
    have hbefore : i - base < (s.packets.drop base).findIdx fun f => !f.acked := by omega
    have hin := Nat.lt_of_lt_of_le hbefore findIdx_le_length
    have hnot := not_of_lt_findIdx hbefore
    rw [length_drop] at hin
    have hi : i < s.packets.length := by omega
    have hacked : s.packets[i].acked = true := by
      simpa [Nat.add_sub_cancel' hle] using hnot
    rw [Acked, marks, List.getElem?_map, List.getElem?_eq_getElem hi]
    simp [hacked]
  · intro hacked
    rw [Acked, marks, List.getElem?_map] at hacked
    obtain ⟨f, hf, hf'⟩ := Option.map_eq_some_iff.mp hacked
    obtain ⟨hin, rfl⟩ := List.getElem?_eq_some_iff.mp hf
    have hidx : (s.packets.drop base).findIdx (fun f => !f.acked) < (s.packets.drop base).length := by
      rw [length_drop]
      omega
    have hfound := findIdx_getElem (w := hidx)
    simp [hf', first] at hfound

theorem hears_acknowledge {s' : Sender} (h : s.acknowledge number = .ok s') :
    s.Hears s' number := by
  by_cases hknown : number < s.packets.length
  · have hmarks : (s.packets.set number { acked := true, timer := none }).map Flight.acked =
        s.marks.set number true := by
      rw [map_set]
      rfl
    simp only [acknowledge, if_pos hknown] at h
    split at h
    · rename_i hfinished
      injection h with h
      subst h
      exact ⟨rfl, rfl, hmarks, fun _ => rfl, fun hnot => by rw [hfinished] at hnot; cases hnot⟩
    · rename_i hfinished
      injection h with h
      subst h
      refine ⟨rfl, rfl, hmarks, fun hdone => absurd hdone hfinished, fun _ => ?_⟩
      exact ⟨Nat.le_add_right _ _, findIdx_drop_acked
          { s with packets := s.packets.set number { acked := true, timer := none } } s.base⟩
  · simp only [acknowledge, if_neg hknown] at h
    cases h

theorem exists_acknowledge_eq (h : number < s.marks.length) :
    ∃ s', s.acknowledge number = .ok s' := by
  have hknown : number < s.packets.length := by simpa [marks] using h
  simp only [acknowledge, if_pos hknown]
  split <;> exact ⟨_, rfl⟩

theorem acked_of_hears {s' : Sender} (h : s.Hears s' number) (i : Nat) :
    s'.Acked i ↔ s.Acked i ∨ i = number ∧ number < s.marks.length := by
  rw [Acked, h.marks]
  by_cases hi : number = i
  · subst hi
    by_cases hlt : number < s.marks.length <;> simp [hlt, Acked]
  · have hne : i ≠ number := fun he => hi he.symm
    simp [hi, hne, Acked]

theorem listen_some_of_ok {s' : Sender} (hs : s.finished = false)
    (h : s.acknowledge number = .ok s') :
    listen [some number] s = { state := s', ended := s'.finished } := by
  simp only [listen, hs, h, Bool.false_eq_true, if_false]
  cases hs' : s'.finished <;> simp

theorem state_listen_some (s : Sender) (number : Nat) :
    (listen [some number] s).state = s ∨ s.Hears (listen [some number] s).state number := by
  cases hfinished : s.finished with
  | true =>
    left
    simp only [listen, hfinished, if_true]
  | false =>
    cases hack : s.acknowledge number with
    | ok _ =>
      right
      rw [listen_some_of_ok hfinished hack]
      exact hears_acknowledge hack
    | error e =>
      left
      simp only [listen, hfinished, hack, Bool.false_eq_true, if_false]

end Sender

theorem step_cases {c c' : Crew Sender} (hwindow : 0 ≤ c.sender.window)
    (h : Crew.Step threads c heard c' numbers) : c.sender.Sends c'.sender numbers ∨
      ∃ number, heard = some number ∧ numbers = [] ∧ c.sender.Hears c'.sender number := by
  cases h with
  | testSending | testResending | testListening => exact .inl Sender.Sends.nothing
  | send now h => exact .inl (sends_sendNext now c.sender)
  | resend now h => exact .inl (sends_resend now hwindow)
  | silence now h =>
    have hstate : (listen [none] c.sender).state = c.sender := by
      simp only [Sender.listen]
      split <;> rfl
    left
    show c.sender.Sends (listen [none] c.sender).state []
    rw [hstate]
    exact Sender.Sends.nothing
  | hear now number h =>
    rcases c.sender.state_listen_some number with hsame | hhears
    · left
      show c.sender.Sends (listen [some number] c.sender).state []
      rw [hsame]
      exact Sender.Sends.nothing
    · exact .inr ⟨number, rfl, rfl, hhears⟩

/-! ## What every run keeps -/

/-- All that is under way are packets of the file that the window has room for, and answers for
packets that the receiver holds. What the sender counts as acknowledged the receiver holds, and
everything before the window is acknowledged. -/
structure Consistent (file : Bytes) (window : Int) (s : Link) : Prop where
  size : s.crew.sender.window = window
  count : s.crew.sender.marks.length = packetCount file
  base : s.crew.sender.base < packetCount file
  below : ∀ i < s.crew.sender.base, s.crew.sender.Acked i
  acked : ∀ i, s.crew.sender.Acked i →
    (i : Int) < s.crew.sender.base + window ∧ s.receiver.Holds file i
  data : ∀ packet ∈ s.data, ∃ i < packetCount file,
    (i : Int) < s.crew.sender.base + window ∧ packet = numberedPacket file i
  acks : ∀ ack ∈ s.acks, ∃ i < packetCount file,
    (i : Int) < s.crew.sender.base + window ∧ s.receiver.Holds file i ∧ ack = ackBytes i
  receiver : s.receiver.Ordered file window.toNat
  waits : s.receiver.Waits
  left : s.crew.sending = .left → s.crew.sender.finished = true

namespace Consistent

variable {s : Link}

theorem start (file : Bytes) (hwindow : 1 ≤ window) (limit : Int) :
    Consistent file window (Link.start window limit (packetCount file)) where
  size := rfl
  count := by simp [Link.start, Sender.start, Sender.marks]
  base := packetCount_pos file
  below := by simp [Link.start, Sender.start]
  acked := fun i hacked => absurd hacked (Sender.not_acked_start window limit _ i)
  data := by simp [Link.start]
  acks := by simp [Link.start]
  receiver := (Receiver.ordered_start file hwindow).1
  waits := (Receiver.ordered_start file hwindow).2
  left := by simp [Link.start]

variable (h : Consistent file window s)
include h

theorem base_le : s.crew.sender.base ≤ s.receiver.base :=
  h.waits.le_base fun i hi => (h.acked i (h.below i hi)).2

theorem finished_iff :
    s.crew.sender.finished = true ↔ s.crew.sender.Acked (packetCount file - 1) := by
  have hpos := packetCount_pos file
  exact Sender.finished_iff (by rw [h.count]; omega)

/-- The network may lose and copy what it carries. -/
theorem carries {data acks : List Bytes} (hdata : data ⊆ s.data) (hacks : acks ⊆ s.acks) :
    Consistent file window { s with data, acks } :=
  { h with
    data := fun packet hp => h.data packet (hdata hp)
    acks := fun ack ha => h.acks ack (hacks ha) }

theorem loses (i : Nat) : Consistent file window { s with data := s.data.eraseIdx i } :=
  h.carries (eraseIdx_subset ..) (refl _)

theorem sends (hsends : s.crew.sender.Sends crew.sender numbers)
    (hleft : crew.sending = .left → crew.sender.finished = true) : Consistent file window
      { s with crew, data := s.data ++ packetsAt (numberedPackets file) numbers } := by
  have hacked : ∀ i, crew.sender.Acked i ↔ s.crew.sender.Acked i := by
    intro i
    rw [Sender.Acked, hsends.marks, Sender.Acked]
  refine {
    size := hsends.window.trans h.size
    count := (congrArg List.length hsends.marks).trans h.count
    base := hsends.base ▸ h.base
    below := ?_, acked := ?_, data := ?_, acks := ?_
    receiver := h.receiver, waits := h.waits, left := hleft }
  · intro i hi
    rw [hsends.base] at hi
    exact (hacked i).mpr (h.below i hi)
  · intro i hi
    rw [hsends.base]
    exact h.acked i ((hacked i).mp hi)
  · intro packet hp
    rw [hsends.base]
    rcases mem_append.mp hp with hp | hp
    · exact h.data packet hp
    obtain ⟨i, hi, hlt, rfl⟩ := mem_packetsAt.mp hp
    have hroom := hsends.numbers i hi
    rw [h.size] at hroom
    exact ⟨i, hlt, hroom, rfl⟩
  · rw [hsends.base]
    exact h.acks

theorem hears (hhears : s.crew.sender.Hears crew.sender number)
    (hnumber : number < packetCount file) (hroom : (number : Int) < s.crew.sender.base + window)
    (hholds : s.receiver.Holds file number)
    (hleft : crew.sending = .left → crew.sender.finished = true) :
    Consistent file window { s with crew } := by
  have hacked : ∀ i, crew.sender.Acked i ↔ s.crew.sender.Acked i ∨ i = number := by
    intro i
    rw [Sender.acked_of_hears hhears i, h.count]
    simp only [hnumber, and_true]
  have hcount : crew.sender.marks.length = packetCount file := by
    rw [hhears.marks, length_set, h.count]
  -- Either the sender has finished and the window stays, or it moves on, but not over the last
  -- packet, which is not acknowledged.
  have hbase : s.crew.sender.base ≤ crew.sender.base ∧ crew.sender.base < packetCount file ∧
      ∀ i, s.crew.sender.base ≤ i → i < crew.sender.base → crew.sender.Acked i := by
    have hold := h.base
    cases hfinished : crew.sender.finished with
    | true =>
      rw [hhears.stays hfinished]
      exact ⟨Nat.le_refl _, hold, fun i hle hlt => absurd hlt (by omega)⟩
    | false =>
      obtain ⟨hle, hbetween, -⟩ := hhears.moves hfinished
      refine ⟨hle, ?_, hbetween⟩
      by_contra hbeyond
      have hlast := hbetween (packetCount file - 1) (by omega) (by omega)
      rw [← Sender.finished_iff (by rw [hcount]; omega), hfinished] at hlast
      cases hlast
  refine {
    size := hhears.window.trans h.size, count := hcount, base := hbase.2.1
    below := ?_, acked := ?_, data := ?_, acks := ?_
    receiver := h.receiver, waits := h.waits, left := hleft }
  · intro i hi
    by_cases hold : i < s.crew.sender.base
    · exact (hacked i).mpr (.inl (h.below i hold))
    · exact hbase.2.2 i (by omega) hi
  · intro i hi
    show (i : Int) < crew.sender.base + window ∧ s.receiver.Holds file i
    rcases (hacked i).mp hi with hold | rfl
    · obtain ⟨hlt, hh⟩ := h.acked i hold
      exact ⟨by omega, hh⟩
    · exact ⟨by omega, hholds⟩
  · intro packet hp
    obtain ⟨i, hi, hlt, rfl⟩ := h.data packet hp
    refine ⟨i, hi, ?_, rfl⟩
    show (i : Int) < crew.sender.base + window
    omega
  · intro ack ha
    obtain ⟨i, hi, hlt, hh, rfl⟩ := h.acks ack ha
    refine ⟨i, hi, ?_, hh, rfl⟩
    show (i : Int) < crew.sender.base + window
    omega

/-- Finishing is for good, and the thread that sends leaves its loop only when the sender has
finished. -/
theorem finished_of_left (hcrew : Crew.Step threads s.crew heard crew numbers)
    (hstable : s.crew.sender.finished = true → crew.sender.finished = true) :
    crew.sending = .left → crew.sender.finished = true := by
  intro hsending
  cases hcrew with
  | testSending hphase =>
    cases hfinished : s.crew.sender.finished with
    | true => rfl
    | false =>
      have hinside : Phase.afterTest s.crew.sender.finished = .left := hsending
      rw [hfinished] at hinside
      cases hinside
  | send now hphase => cases hsending
  | testResending | testListening | resend | silence | hear => exact hstable (h.left hsending)

theorem linger (hended : s.receiver.ended = true) (hdata : s.data[i]? = some packet) :
    Consistent file window
      { s with data := s.data.eraseIdx i, acks := s.acks ++ [packet.take 2] } := by
  obtain ⟨k, hk, hroom, rfl⟩ := h.data packet (mem_of_getElem? hdata)
  have hheld : s.receiver.Holds file k := by
    left
    rw [h.receiver.ended.mp hended]
    exact hk
  have hnumber : (numberedPacket file k).take 2 = ackBytes k := by
    simp [numberedPacket, frame, ackBytes]
  refine { h.loses i with acks := fun ack ha => ?_ }
  rcases mem_append.mp ha with ha | ha
  · exact h.acks ack ha
  · exact ⟨k, hk, hroom, hheld, (mem_singleton.mp ha).trans hnumber⟩

variable (hwindow : 1 ≤ window)
include hwindow

theorem work (hcrew : Crew.Step Sender.threads s.crew heard crew numbers)
    (hheard : ∀ number ∈ heard, number < packetCount file ∧
      (number : Int) < s.crew.sender.base + window ∧ s.receiver.Holds file number) :
    Consistent file window
      { s with crew, data := s.data ++ packetsAt (numberedPackets file) numbers } := by
  have hpos := packetCount_pos file
  have hsize : 0 ≤ s.crew.sender.window := by
    rw [h.size]
    omega
  rcases step_cases hsize hcrew with hsends | ⟨number, rfl, rfl, hhears⟩
  · refine h.sends hsends (h.finished_of_left hcrew fun hfinished => ?_)
    rw [Sender.finished_iff (n := packetCount file - 1), Sender.Acked, hsends.marks]
    · exact h.finished_iff.mp hfinished
    · rw [hsends.marks, h.count]
      omega
  · obtain ⟨hnumber, hroom, hholds⟩ := hheard number rfl
    have hfinal : s.crew.sender.finished = true → crew.sender.finished = true := by
      intro hfinished
      rw [Sender.finished_iff (n := packetCount file - 1)]
      · exact (Sender.acked_of_hears hhears _).mpr (.inl (h.finished_iff.mp hfinished))
      · rw [hhears.marks, length_set, h.count]
        omega
    rw [packetsAt_nil, append_nil]
    exact h.hears hhears hnumber hroom hholds (h.finished_of_left hcrew hfinal)

variable (hfits : packetCount file ≤ 65536)
include hfits

theorem exists_take (hpacket : packet ∈ s.data) :
    ∃ k < packetCount file, (k : Int) < s.crew.sender.base + window ∧
      packet = numberedPacket file k ∧
      ∃ reaction, s.receiver.take (packet.take 1027) = .ok reaction ∧
        reaction.sent = [ackBytes k] ∧ reaction.state.Ordered file window.toNat ∧
        reaction.state.Waits ∧
        ∀ j, reaction.state.Holds file j ↔ s.receiver.Holds file j ∨ j = k := by
  obtain ⟨k, hk, hroom, rfl⟩ := h.data packet hpacket
  have hle := h.base_le
  refine ⟨k, hk, hroom, rfl, ?_⟩
  rw [take_numberedPacket]
  exact h.receiver.exists_take (by omega) hfits hk (by omega)

theorem take (hdata : s.data[i]? = some packet) :
    ∃ reaction, s.receiver.take (packet.take 1027) = .ok reaction ∧ Consistent file window { s with
        receiver := reaction.state, data := s.data.eraseIdx i,
        acks := s.acks ++ reaction.sent } := by
  obtain ⟨k, hk, hroom, rfl, reaction, htake, hsent, hordered, hwaits, hholds⟩ :=
    h.exists_take hwindow hfits (mem_of_getElem? hdata)
  refine ⟨reaction, htake, ?_⟩
  refine { h.loses i with
    acked := fun j hj => ?_, acks := fun ack ha => ?_, receiver := hordered, waits := hwaits }
  · obtain ⟨hlt, hj⟩ := h.acked j hj
    exact ⟨hlt, (hholds j).mpr (.inl hj)⟩
  · rw [hsent] at ha
    rcases mem_append.mp ha with ha | ha
    · obtain ⟨j, hj, hlt, hh, rfl⟩ := h.acks ack ha
      exact ⟨j, hj, hlt, (hholds j).mpr (.inl hh), rfl⟩
    · exact ⟨k, hk, hroom, (hholds k).mpr (.inr rfl), mem_singleton.mp ha⟩

theorem step {t : Link} (hst : Link.Step (numberedPackets file) s t) : Consistent file window t := by
  cases hst with
  | loseData i => exact h.loses i
  | loseAck i => exact h.carries (refl _) (eraseIdx_subset ..)
  | copyData packet hdata =>
    exact h.carries (cons_subset.mpr ⟨hdata, refl _⟩) (refl _)
  | copyAck ack hacks => exact h.carries (refl _) (cons_subset.mpr ⟨hacks, refl _⟩)
  | work crew numbers hcrew => exact h.work hwindow hcrew (by simp)
  | hear i ack crew numbers hack hcrew =>
    obtain ⟨k, hk, hroom, hholds, rfl⟩ := h.acks ack (mem_of_getElem? hack)
    rw [toNat_ackBytes (by omega)] at hcrew
    refine (h.carries (refl _) (eraseIdx_subset ..)).work hwindow hcrew ?_
    rintro _ ⟨⟩
    exact ⟨hk, hroom, hholds⟩
  | take i packet reaction hr hdata htake =>
    obtain ⟨reaction', htake', hnext⟩ := h.take hwindow hfits hdata
    obtain rfl : reaction' = reaction := by simpa [htake] using htake'.symm
    exact hnext
  | linger i packet hr hdata => exact h.linger hr hdata

theorem take_holds (hpacket : packet ∈ s.data) :
    ∃ i < packetCount file, (i : Int) < s.receiver.base + window ∧
      packet = numberedPacket file i ∧ numberOf packet = i ∧
      ∃ reaction, s.receiver.take (packet.take 1027) = .ok reaction ∧
        reaction.sent = [ackBytes i] ∧ reaction.state.Holds file i := by
  obtain ⟨i, hi, _, rfl, reaction, htake, hsent, -, -, hholds⟩ :=
    h.exists_take hwindow hfits hpacket
  have hle := h.base_le
  exact ⟨i, hi, by omega, rfl, numberOf_numberedPacket file (by omega), reaction, htake, hsent,
    (hholds i).mpr (.inr rfl)⟩

end Consistent

theorem Link.Reachable.consistent {limit : Int} {s : Link} (hwindow : 1 ≤ window)
    (h : Link.Reachable file window limit s) : Consistent file window s :=
  invariant h (Consistent.start file hwindow limit)
    fun _ _ hs ih hst => ih.step hwindow hs.fits hst

theorem Consistent.acked_of_finished {s : Link} (h : Consistent file window s)
    (hfinished : s.crew.sender.finished = true) (hi : (i : Int) + window < packetCount file) :
    s.crew.sender.Acked i := by
  have hlast := (h.acked _ (h.finished_iff.mp hfinished)).1
  exact h.below i (by omega)

/-! ## A run that leaves a packet behind -/

/-- The packets before `k` are acknowledged and written, those from `k` up to `m` are under way, no
answer is, and all threads stand before their tests. -/
structure Poised (file : Bytes) (k m : Nat) (s : Link) : Prop where
  base : s.crew.sender.base = k
  next : s.crew.sender.next = m
  acked : ∀ i, s.crew.sender.Acked i ↔ i < k
  holds : ∀ i, s.receiver.Holds file i ↔ i < k
  data : s.data = (List.range' k (m - k)).map (numberedPacket file)
  acks : s.acks = []
  sending : s.crew.sending = .testing
  resending : s.crew.resending = .testing
  listening : s.crew.listening = .testing

namespace Poised

variable {limit : Int} {k m : Nat} {s : Link}

theorem finished (h : Poised file k m s) (hs : Consistent file window s)
    (hk : k < packetCount file) : s.crew.sender.finished = false := by
  rw [Bool.eq_false_iff, ne_eq, hs.finished_iff, h.acked]
  omega

section
variable (hwindow : 1 ≤ window) (hs : Link.Reachable file window limit s)
include hwindow hs

theorem send (h : Poised file k m s) (hk : k < packetCount file) (hkm : k ≤ m)
    (hm : m < packetCount file) (hroom : (m : Int) < k + window) :
    ∃ t, Link.Reachable file window limit t ∧ Poised file k (m + 1) t := by
  have hconsistent := hs.consistent hwindow
  have htested := tail hs (.work s _ _ (.testSending s.crew h.sending))
  have hsent := htested.tail (.work _ _ _ (.send _ 0 (Phase.inside_of_not (h.finished hconsistent hk))))
  refine ⟨_, hsent, ?_⟩
  have hcount : s.crew.sender.packets.length = packetCount file := by
    simpa [marks] using hconsistent.count
  have hfree : (s.crew.sender.next : Int) <
      min (s.crew.sender.base + s.crew.sender.window) s.crew.sender.packets.length := by
    rw [h.next, h.base, hconsistent.size, hcount]
    omega
  have hsends := sends_sendNext 0 s.crew.sender
  obtain ⟨hnext, hnumbers⟩ := sendNext_of_room hfree 0
  rw [h.next] at hnext hnumbers
  refine {
    base := hsends.base.trans h.base, next := hnext, acked := ?_, holds := h.holds, data := ?_
    acks := h.acks, sending := rfl, resending := h.resending, listening := h.listening }
  · intro i
    show (s.crew.sender.sendNext 0).1.Acked i ↔ i < k
    rw [Sender.Acked, hsends.marks]
    exact h.acked i
  · show s.data ++ packetsAt (numberedPackets file) [] ++
      packetsAt (numberedPackets file) (s.crew.sender.sendNext 0).2 = _
    have hlength : m + 1 - k = m - k + 1 := by omega
    have hend : k + (m - k) = m := by omega
    rw [hnumbers, packetsAt_nil, append_nil, packetsAt_singleton hm, h.data, hlength,
      List.range'_concat, map_append, Nat.one_mul, hend]
    rfl

theorem answer (h : Poised file k m s) (hk : k < packetCount file)
    (hm : m ≤ packetCount file) {q : Nat} (hkq : k ≤ q) (hqm : q < m) :
    ∃ sender receiver, s.crew.sender.Hears sender q ∧
      (∀ i, receiver.Holds file i ↔ i < k ∨ i = q) ∧
      Link.Reachable file window limit {
        crew := { s.crew with
          sender, listening := if sender.finished then .left else .testing }
        receiver, data := s.data.eraseIdx (q - k) } := by
  have hconsistent := hs.consistent hwindow
  have hended : s.receiver.ended = false := by
    have hbase := hconsistent.waits.base_eq h.holds
    rw [Bool.eq_false_iff, ne_eq, hconsistent.receiver.ended]
    omega
  have hdata : s.data[q - k]? = some (numberedPacket file q) := by
    rw [h.data, List.getElem?_map, List.getElem?_range' (by omega), Nat.one_mul,
      Nat.add_sub_cancel' hkq]
    rfl
  obtain ⟨i, _, -, hpacket, reaction, htake, hsent, -, -, hholds⟩ :=
    hconsistent.exists_take hwindow hs.fits (mem_of_getElem? hdata)
  have hfits := hs.fits
  obtain rfl : q = i := numberedPacket_injective (by omega) (by omega) hpacket
  have htaken := tail hs (.take s _ _ reaction hended hdata htake)
  have htested := htaken.tail (.work _ _ _ (.testListening _ h.listening))
  have hack : (s.acks ++ reaction.sent)[0]? = some (ackBytes q) := by
    rw [h.acks, hsent]
    rfl
  have hfinished := h.finished hconsistent hk
  have hheard := htested.tail (.hear _ 0 _ _ _ hack (.hear _ 0 _ (Phase.inside_of_not hfinished)))
  have hknown : q < s.crew.sender.marks.length := by
    rw [hconsistent.count]
    omega
  obtain ⟨sender, hsender⟩ := exists_acknowledge_eq hknown
  have hlisten : threads.listen 0 [some (Bytes.toNat ((ackBytes q).take 2))] s.crew.sender =
      { state := sender, ended := sender.finished } := by
    rw [toNat_ackBytes (by omega)]
    exact listen_some_of_ok hfinished hsender
  refine ⟨sender, reaction.state, hears_acknowledge hsender, fun i => ?_, ?_⟩
  · rw [← h.holds i]
    exact hholds i
  · simpa [Link.Reachable, Crew.afterListening, hlisten, packetsAt_nil, h.acks, hsent] using hheard

theorem settle (h : Poised file k (k + 1) s) (hk : k + 1 < packetCount file) :
    ∃ t, Link.Reachable file window limit t ∧ Poised file (k + 1) (k + 1) t := by
  have hconsistent := hs.consistent hwindow
  obtain ⟨sender, receiver, hhears, hholds, ht⟩ :=
    h.answer hwindow hs (by omega) (by omega) (Nat.le_refl k) (by omega)
  have hacked : ∀ i, sender.Acked i ↔ i < k + 1 := by
    intro i
    rw [acked_of_hears hhears, h.acked, hconsistent.count]
    omega
  have hnot : sender.finished = false := by
    rw [Bool.eq_false_iff, ne_eq, (ht.consistent hwindow).finished_iff, hacked]
    omega
  have hbase : sender.base = k + 1 := by
    obtain ⟨hle, hbetween, hstop⟩ := hhears.moves hnot
    rw [hacked] at hstop
    by_contra hne
    have hpast := hbetween (k + 1) (by rw [h.base]; omega) (by omega)
    rw [hacked] at hpast
    omega
  rw [hnot] at ht
  refine ⟨_, ht, {
    base := hbase, next := hhears.next.trans h.next, acked := hacked
    holds := fun i => (hholds i).trans (by omega), data := ?_, acks := rfl
    sending := h.sending, resending := h.resending, listening := rfl }⟩
  rw [h.data, Nat.add_sub_cancel_left, Nat.sub_self, Nat.sub_self]
  rfl

theorem leave (h : Poised file k (packetCount file) s) (hk : k < packetCount file) :
    ∃ t, Link.Reachable file window limit t ∧ t.crew.Left ∧
      (∀ i, t.crew.sender.Acked i ↔ i < k ∨ i = packetCount file - 1) ∧
      ∀ i, t.receiver.Holds file i ↔ i < k ∨ i = packetCount file - 1 := by
  obtain ⟨sender, receiver, hhears, hholds, ht⟩ :=
    h.answer hwindow hs hk (Nat.le_refl _) (by omega : k ≤ packetCount file - 1) (by omega)
  have hacked : ∀ i, sender.Acked i ↔ i < k ∨ i = packetCount file - 1 := by
    intro i
    rw [acked_of_hears hhears, h.acked, (hs.consistent hwindow).count]
    omega
  have hfinished : sender.finished = true :=
    (ht.consistent hwindow).finished_iff.mpr ((hacked _).mpr (.inr rfl))
  have hsending := tail ht (.work _ _ _ (.testSending _ h.sending))
  have hresending := hsending.tail (.work _ _ _ (.testResending _ h.resending))
  have hleft : Phase.afterTest (threads.finished sender) = .left := by
    show Phase.afterTest sender.finished = .left
    rw [hfinished]
    rfl
  exact ⟨_, hresending, ⟨hleft, hleft, if_pos hfinished⟩, hacked, hholds⟩

end

theorem exists_reachable (hfits : packetCount file ≤ 65536) (hwindow : 1 ≤ window) (limit : Int) :
    ∀ k < packetCount file, ∃ s, Link.Reachable file window limit s ∧ Poised file k k s := by
  intro k
  induction k with
  | zero =>
    intro _
    refine ⟨_, refl hfits, rfl, rfl, fun i => ?_, fun i => ?_, rfl, rfl, rfl, rfl, rfl⟩
    · exact iff_of_false (not_acked_start window limit _ i) (Nat.not_lt_zero i)
    · exact iff_of_false (Receiver.holds_start file window i) (Nat.not_lt_zero i)
  | succ k ih =>
    intro hk
    obtain ⟨s, hs, h⟩ := ih (by omega)
    obtain ⟨t, ht, hsent⟩ := h.send hwindow hs (by omega) (Nat.le_refl k) (by omega) (by omega)
    exact hsent.settle hwindow ht hk

end Poised

/-- There is a run that ends after all packets have been answered in their order. -/
theorem exists_complete (limit : Int) (hfits : packetCount file ≤ 65536) (hwindow : 1 ≤ window) :
    ∃ s, Link.Reachable file window limit s ∧ s.crew.Left ∧
      ∀ i < packetCount file, s.crew.sender.Acked i := by
  have hpos := packetCount_pos file
  obtain ⟨s, hs, h⟩ := Poised.exists_reachable hfits hwindow limit (packetCount file - 1) (by omega)
  obtain ⟨t, ht, hsent⟩ := h.send hwindow hs (by omega) (Nat.le_refl _) (by omega) (by omega)
  rw [Nat.sub_add_cancel hpos] at hsent
  obtain ⟨u, hu, hleft, hacked, -⟩ := hsent.leave hwindow ht (by omega)
  refine ⟨u, hu, hleft, fun i _ => (hacked i).mpr ?_⟩
  omega

/-- If the window has room for two packets of the file, there is a run that ends while the last
packet but one is lost. -/
theorem exists_left_behind (limit : Int) (hfits : packetCount file ≤ 65536) (hwindow : 1 < window)
    (hcount : 1 < packetCount file) : ∃ s, Link.Reachable file window limit s ∧ s.crew.Left ∧
      ¬ s.crew.sender.Acked (packetCount file - 2) ∧
      ¬ s.receiver.Holds file (packetCount file - 2) := by
  have hone : 1 ≤ window := by omega
  obtain ⟨_, hs0, h0⟩ := Poised.exists_reachable hfits hone limit (packetCount file - 2) (by omega)
  obtain ⟨_, hs1, h1⟩ := h0.send hone hs0 (by omega) (Nat.le_refl _) (by omega) (by omega)
  obtain ⟨_, hs2, h2⟩ := h1.send hone hs1 (by omega) (by omega) (by omega) (by omega)
  have hlast : packetCount file - 2 + 1 + 1 = packetCount file := by omega
  rw [hlast] at h2
  obtain ⟨s, hs, hleft, hacked, hholds⟩ := h2.leave hone hs2 (by omega)
  refine ⟨s, hs, hleft, ?_, ?_⟩
  · rw [hacked]
    omega
  · rw [hholds]
    omega

/-! ## The two windows -/

/-- A sender of a file of at most 65536 packets and a receiver with the same window can start, and
whatever the network loses, copies or reorders: the receiver has written the chunks before its
window; it has written or keeps in its slot what the sender counts as acknowledged; everything before
the sender's window is acknowledged, and that window is not beyond the receiver's; no packet under
way lies beyond the receiver's window, so that the receiver answers each of them and holds it from
then on; and a receiver that has ended has written the file. -/
theorem windows_safe {file : Bytes} {window : Int} (limit : Int) (hwindow : 1 ≤ window)
    (hfits : packetCount file ≤ 65536) :
    Link.Reachable file window limit (.start window limit (packetCount file)) ∧
    ∀ s, Link.Reachable file window limit s →
      s.receiver.written = firstChunks file s.receiver.base ∧
      (∀ i, s.crew.sender.Acked i → s.receiver.Holds file i) ∧
      (∀ i < s.crew.sender.base, s.crew.sender.Acked i) ∧
      s.crew.sender.base ≤ s.receiver.base ∧
      (∀ packet ∈ s.data, ∃ i < packetCount file, (i : Int) < s.receiver.base + window ∧
        packet = numberedPacket file i ∧ numberOf packet = i ∧
        ∃ reaction, s.receiver.take (packet.take 1027) = .ok reaction ∧
          reaction.sent = [ackBytes i] ∧ reaction.state.Holds file i) ∧
      (s.receiver.ended = true → s.receiver.written = file) := by
  refine ⟨RunsTo.refl hfits, fun s hs => ?_⟩
  have h := hs.consistent hwindow
  refine ⟨h.receiver.written, fun i hi => (h.acked i hi).2, h.below, h.base_le,
    fun packet hpacket => h.take_holds hwindow hfits hpacket, fun hended => ?_⟩
  rw [h.receiver.written, h.receiver.ended.mp hended, firstChunks_packetCount]

/-- In a run for a file of two packets the second one is acknowledged, and kept in its slot, while the
first one is lost and nothing is written. -/
theorem windows_safe_twoPackets : ∃ s, Link.Reachable twoPackets 2 100 s ∧ s.crew.sender.Acked 1 ∧
      s.receiver.slots[1]? = some (numberedPacket twoPackets 1) ∧ s.receiver.written = [] := by
  have hfits : packetCount twoPackets ≤ 65536 := by
    rw [packetCount_twoPackets]
    decide
  have hcount : 1 < packetCount twoPackets := by
    rw [packetCount_twoPackets]
    decide
  obtain ⟨s, hs, hleft, -, hmissing⟩ :=
    exists_left_behind 100 hfits (by decide : (1 : Int) < 2) hcount
  obtain ⟨hwritten, hholds, -⟩ :=
    (windows_safe 100 (by decide : (1 : Int) ≤ 2) hfits).2 s hs
  rw [packetCount_twoPackets] at hmissing
  have hbase : s.receiver.base = 0 := by
    by_contra hne
    exact hmissing (.inl (Nat.pos_of_ne_zero hne))
  have hlast : s.crew.sender.Acked 1 := by
    have hconsistent := hs.consistent (by decide)
    have hacked := hconsistent.finished_iff.mp (hconsistent.left hleft.1)
    rwa [packetCount_twoPackets] at hacked
  refine ⟨s, hs, hlast, ?_, by rw [hwritten, hbase, firstChunks_zero]⟩
  rcases hholds 1 hlast with hbefore | ⟨-, hslot⟩
  · omega
  · rwa [hbase] at hslot

/-! ## What is complete when the sender ends -/

theorem Consistent.written_eq {s : Link} (h : Consistent file window s)
    (hall : ∀ i < packetCount file, s.crew.sender.Acked i) : s.receiver.written = file :=
  h.receiver.written_eq h.waits fun i hi => (h.acked i (hall i hi)).2

/-- When all threads of a sender have left their loops, its last packet is acknowledged and so are
all packets more than a window before it, the receiver holds what is acknowledged, and if that is
everything it has written the file. Some run ends so, but every run does exactly if never two
packets can be under way. -/
theorem complete_on_exit_iff {file : Bytes} {packets : List Bytes} {window : Int} (limit : Int)
    (hpackets : filePackets file = .ok packets) (hwindow : 1 ≤ window) :
    (∀ s, Link.Reachable file window limit s → s.crew.Left →
      s.crew.sender.Acked (packets.length - 1) ∧
      (∀ i : Nat, i + window < packets.length → s.crew.sender.Acked i) ∧
      ∀ i, s.crew.sender.Acked i → s.receiver.Holds file i) ∧
    (∃ s, Link.Reachable file window limit s ∧ s.crew.Left ∧
      (∀ i < packets.length, s.crew.sender.Acked i) ∧ s.receiver.written = file) ∧
    ((∀ s, Link.Reachable file window limit s → s.crew.Left →
        (∀ i < packets.length, s.crew.sender.Acked i) ∧ s.receiver.written = file) ↔
      window = 1 ∨ packets.length = 1) := by
  obtain ⟨hfits, rfl⟩ := (filePackets_eq_ok_iff file packets).mp hpackets
  rw [length_numberedPackets]
  have hpos := packetCount_pos file
  have hexit : ∀ s, Link.Reachable file window limit s → s.crew.Left →
      s.crew.sender.Acked (packetCount file - 1) ∧
      ∀ i : Nat, i + window < packetCount file → s.crew.sender.Acked i := by
    intro s hs hleft
    have hconsistent := hs.consistent hwindow
    have hfinished := hconsistent.left hleft.1
    exact ⟨hconsistent.finished_iff.mp hfinished,
      fun i hi => hconsistent.acked_of_finished hfinished hi⟩
  refine ⟨?_, ?_, ?_, ?_⟩
  · intro s hs hleft
    obtain ⟨hlast, hbefore⟩ := hexit s hs hleft
    exact ⟨hlast, hbefore, fun i hi => ((hs.consistent hwindow).acked i hi).2⟩
  · obtain ⟨s, hs, hleft, hall⟩ := exists_complete limit hfits hwindow
    exact ⟨s, hs, hleft, hall, (hs.consistent hwindow).written_eq hall⟩
  · intro hnever
    by_contra hwide
    obtain ⟨s, hs, hleft, hmissing, -⟩ :=
      exists_left_behind limit hfits (by omega : 1 < window) (by omega)
    exact hmissing ((hnever s hs hleft).1 _ (by omega))
  · intro hnarrow s hs hleft
    obtain ⟨hlast, hbefore⟩ := hexit s hs hleft
    have hall : ∀ i < packetCount file, s.crew.sender.Acked i := by
      intro i hi
      by_cases hend : i = packetCount file - 1
      · rw [hend]
        exact hlast
      · exact hbefore i (by omega)
    exact ⟨hall, (hs.consistent hwindow).written_eq hall⟩

/-- With a window of one packet nothing is left behind, with a window of two it may be. -/
theorem complete_on_exit_twoPackets :
    (∀ s, Link.Reachable twoPackets 1 100 s → s.crew.Left → s.receiver.written = twoPackets) ∧
    ¬ ∀ s, Link.Reachable twoPackets 2 100 s → s.crew.Left →
      (∀ i < (numberedPackets twoPackets).length, s.crew.sender.Acked i) ∧
        s.receiver.written = twoPackets := by
  constructor
  · intro s hs hleft
    have hiff :=
      (complete_on_exit_iff 100 filePackets_twoPackets (by decide : (1 : Int) ≤ 1)).2.2
    exact (hiff.mpr (.inl rfl) s hs hleft).2
  · have hiff :=
      (complete_on_exit_iff 100 filePackets_twoPackets (by decide : (1 : Int) ≤ 2)).2.2
    rw [hiff, length_numberedPackets, packetCount_twoPackets]
    decide

/-- A run for a file of two packets with a window of two that ends while the first packet is neither
acknowledged nor held by the receiver. -/
theorem left_behind_twoPackets : ∃ s, Link.Reachable twoPackets 2 100 s ∧ s.crew.Left ∧
      ¬ s.crew.sender.Acked 0 ∧ ¬ s.receiver.Holds twoPackets 0 := by
  have hfits : packetCount twoPackets ≤ 65536 := by
    rw [packetCount_twoPackets]
    decide
  have hcount : 1 < packetCount twoPackets := by
    rw [packetCount_twoPackets]
    decide
  have hleft := exists_left_behind 100 hfits (by decide : (1 : Int) < 2) hcount
  rw [packetCount_twoPackets] at hleft
  exact hleft

end Practicum.Net.Transfer.SelectiveRepeat
