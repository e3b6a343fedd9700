import Mathlib.Data.List.TakeWhile
import Practicum.Net.Transfer.SelectiveRepeat
import Practicum.Proofs.Transfer.FilePackets

/-!
# The slots of a receiver

A receiver of selective repeat holds a packet if it has written it or keeps it in a slot of its
window. What it has written are the chunks before its window, which begins at the first packet that
it does not hold.
-/

namespace Practicum.Net.Transfer.SelectiveRepeat.Receiver

open List

/-- The receiver has written a packet of a file, or keeps it in the slot where it belongs. -/
def Holds (file : Bytes) (r : Receiver) (i : Nat) : Prop :=
  i < r.base ∨ r.base ≤ i ∧ r.slots[i - r.base]? = some (numberedPacket file i)

/-- A receiver that got packets of a file only: a slot is empty or holds the packet that belongs
there, and the packets before the window are written. -/
structure Ordered (file : Bytes) (size : Nat) (r : Receiver) : Prop where
  size : r.slots.length = size
  slots : ∀ j packet, r.slots[j]? = some packet →
    packet = [] ∨ r.base + j < packetCount file ∧ packet = numberedPacket file (r.base + j)
  base : r.base ≤ packetCount file
  written : r.written = firstChunks file r.base
  ended : r.ended = true ↔ r.base = packetCount file

def Waits (r : Receiver) : Prop :=
  r.slots[0]? = some []

variable {file : Bytes} {size : Nat} {r : Receiver}

theorem Waits.not_holds_base (h : r.Waits) : ¬ r.Holds file r.base := by
  rintro (hlt | ⟨-, hslot⟩)
  · exact Nat.lt_irrefl _ hlt
  · rw [Nat.sub_self, h] at hslot
    exact numberedPacket_ne_nil file _ (Option.some.inj hslot).symm

/-- The window begins at the first packet that the receiver does not hold. -/
theorem Waits.base_eq (h : r.Waits) {n : Nat} (hn : ∀ i, r.Holds file i ↔ i < n) : r.base = n := by
  apply Nat.le_antisymm
  · by_contra hlt
    have hholds : r.Holds file n := .inl (by omega)
    exact Nat.lt_irrefl n ((hn n).mp hholds)
  · by_contra hlt
    exact h.not_holds_base ((hn r.base).mpr (by omega))

theorem Waits.le_base (h : r.Waits) {n : Nat} (hn : ∀ i < n, r.Holds file i) : n ≤ r.base := by
  by_contra hlt
  exact h.not_holds_base (hn r.base (by omega))

theorem ordered_start (file : Bytes) {window : Int} (h : 1 ≤ window) :
    (start window).Ordered file window.toNat ∧ (start window).Waits := by
  have hpos := packetCount_pos file
  have hslots : (start window).slots = List.replicate window.toNat [] := rfl
  refine ⟨⟨by simp [hslots], ?_, Nat.zero_le _, rfl, ?_⟩, ?_⟩
  · intro j packet hpacket
    left
    exact eq_of_mem_replicate (mem_of_getElem? hpacket)
  · simp only [start, Bool.false_eq_true, false_iff]
    omega
  · rw [Waits, hslots, List.getElem?_replicate, if_pos (by omega)]

theorem holds_start (file : Bytes) (window : Int) (i : Nat) : ¬ (start window).Holds file i := by
  rintro (hlt | ⟨-, hslot⟩)
  · exact Nat.not_lt_zero i hlt
  · have hnil := eq_of_mem_replicate (mem_of_getElem? hslot)
    exact numberedPacket_ne_nil file i hnil

/-! ## Delivery -/

theorem exists_takeWhile_eq (file : Bytes) (slots : List Bytes) (base : Nat)
    (hbase : base ≤ packetCount file) (hslots : ∀ j packet, slots[j]? = some packet →
      packet = [] ∨ base + j < packetCount file ∧ packet = numberedPacket file (base + j)) :
    ∃ k, slots.takeWhile (· ≠ []) = (List.range k).map (fun j => numberedPacket file (base + j)) ∧
      base + k ≤ packetCount file ∧ k ≤ slots.length ∧
      (k < slots.length → slots[k]? = some []) := by
  induction slots generalizing base with
  | nil => exact ⟨0, rfl, hbase, Nat.le_refl _, by simp⟩
  | cons packet slots ih =>
    rcases hslots 0 packet rfl with rfl | ⟨hlt, rfl⟩
    · exact ⟨0, by simp, hbase, Nat.zero_le _, by simp⟩
    obtain ⟨k, hready, _, hlength, hempty⟩ := ih (base + 1) hlt (by
      intro j p hp
      have hshift : base + (j + 1) = base + 1 + j := by omega
      have hnext := hslots (j + 1) p hp
      rwa [hshift] at hnext)
    refine ⟨k + 1, ?_, by omega, by simpa using hlength, by simpa using hempty⟩
    have hne : decide (numberedPacket file (base + 0) ≠ []) = true :=
      decide_eq_true (numberedPacket_ne_nil file _)
    rw [takeWhile_cons, if_pos hne, hready, range_succ_eq_map, map_cons, map_map]
    congr 1
    apply map_congr_left
    intro j _
    congr 1
    omega

theorem firstChunks_add (file : Bytes) (n k : Nat) : firstChunks file (n + k) =
      firstChunks file n ++ ((List.range k).map fun j => chunk file (n + j)).flatten := by
  induction k with
  | zero => simp
  | succ k ih => simp [← Nat.add_assoc, firstChunks_succ, ih, range_succ]

theorem Ordered.deliver_eq (h : r.Ordered file size) (hsize : 0 < size) :
    ∃ k printed, r.deliver = .ok {
        state := {
          base := r.base + k
          slots := r.slots.drop k ++ List.replicate k []
          written := firstChunks file (r.base + k)
          ended := decide (r.base + k = packetCount file) }
        printed } ∧
      r.base + k ≤ packetCount file ∧ k ≤ size ∧
      (∀ j < k, r.slots[j]? = some (numberedPacket file (r.base + j))) ∧
      (k < size → r.slots[k]? = some []) := by
  obtain ⟨k, hready, hle, hlength, hempty⟩ := exists_takeWhile_eq file r.slots r.base h.base h.slots
  rw [h.size] at hlength hempty
  have hslot : ∀ j < k, r.slots[j]? = some (numberedPacket file (r.base + j)) := by
    intro j hj
    have hsplit := takeWhile_append_dropWhile (p := (· ≠ [])) (l := r.slots)
    rw [← hsplit, hready, List.getElem?_append_left (by simpa using hj)]
    simp [hj]
  have hwritten : r.written ++
      (((List.range k).map fun j => numberedPacket file (r.base + j)).map dataOf).flatten =
      firstChunks file (r.base + k) := by
    rw [h.written, firstChunks_add, map_map]
    simp only [Function.comp_def, dataOf_numberedPacket]
  have hended : (r.ended || ((List.range k).map fun j => numberedPacket file (r.base + j)).any
      fun packet => (packet[2]?.getD 0) ≠ 0) = decide (r.base + k = packetCount file) := by
    rw [Bool.eq_iff_iff, Bool.or_eq_true, h.ended, decide_eq_true_iff]
    simp only [any_map, any_eq_true, mem_range, Function.comp_apply,
      decide_eq_true_iff, marked_numberedPacket_iff]
    constructor
    · rintro (hlast | ⟨j, hj, hlast⟩) <;> omega
    · intro hlast
      by_cases hk : k = 0
      · left
        omega
      · exact .inr ⟨k - 1, by omega, by omega⟩
  have hnonempty : r.slots.isEmpty = false := by
    rw [isEmpty_eq_false_iff, ← length_pos_iff, h.size]
    exact hsize
  refine ⟨k, String.join ((List.range k).map fun i =>
    "received " ++ toString (r.base + i + 1) ++ " KB\n"), ?_, hle, hlength, hslot, hempty⟩
  simp only [deliver, hnonempty, Bool.false_eq_true, if_false, hready, length_map,
    length_range, hended, hwritten]

theorem Ordered.exists_deliver (h : r.Ordered file size) (hsize : 0 < size) :
    ∃ reaction, r.deliver = .ok reaction ∧ reaction.state.Ordered file size ∧
      reaction.state.Waits ∧ ∀ i, reaction.state.Holds file i ↔ r.Holds file i := by
  obtain ⟨k, _, hdeliver, hle, _, hslot, hempty⟩ := h.deliver_eq hsize
  have hshift : ∀ j, (r.slots.drop k ++ List.replicate k [])[j]? =
      if j + k < size then r.slots[j + k]? else if j < size then some [] else none := by
    intro j
    by_cases hj : j + k < size
    · rw [if_pos hj, List.getElem?_append_left (by rw [length_drop, h.size]; omega),
        List.getElem?_drop, Nat.add_comm]
    · rw [if_neg hj, List.getElem?_append_right (by rw [length_drop, h.size]; omega),
        List.getElem?_replicate, length_drop, h.size]
      by_cases hjs : j < size
      · rw [if_pos hjs, if_pos (by omega)]
      · rw [if_neg hjs, if_neg (by omega)]
  refine ⟨_, hdeliver, ⟨?_, ?_, hle, rfl, by simp⟩, ?_, ?_⟩
  · rw [length_append, length_drop, length_replicate, h.size]
    omega
  · intro j packet hpacket
    simp only [hshift] at hpacket
    by_cases hj : j + k < size
    · rw [if_pos hj] at hpacket
      have hold := h.slots (j + k) packet hpacket
      have hsum : r.base + (j + k) = r.base + k + j := by omega
      rwa [hsum] at hold
    · rw [if_neg hj] at hpacket
      left
      by_cases hjs : j < size
      · rw [if_pos hjs] at hpacket
        exact (Option.some.inj hpacket).symm
      · rw [if_neg hjs] at hpacket
        cases hpacket
  · rw [Waits, hshift]
    by_cases hk : 0 + k < size
    · rw [if_pos hk, Nat.zero_add]
      exact hempty (by omega)
    · rw [if_neg hk, if_pos hsize]
  · intro i
    simp only [Holds, hshift]
    by_cases hwritten : i < r.base
    · simp only [hwritten, true_or, iff_true]
      omega
    by_cases hready : i < r.base + k
    · have hget := hslot (i - r.base) (by omega)
      rw [Nat.add_sub_cancel' (by omega)] at hget
      exact iff_of_true (.inl hready) (.inr ⟨by omega, hget⟩)
    · have hindex : i - (r.base + k) + k = i - r.base := by omega
      have hbase : r.base ≤ i := by omega
      have hbehind : r.base + k ≤ i := by omega
      simp only [hwritten, hready, false_or, hbase, hbehind, true_and, hindex]
      by_cases hin : i - r.base < size
      · rw [if_pos hin]
      have hnone : r.slots[i - r.base]? = none := by
        rw [List.getElem?_eq_none_iff, h.size]
        omega
      rw [if_neg hin, hnone]
      constructor
      · intro hsome
        split at hsome
        · exact absurd (Option.some.inj hsome).symm (numberedPacket_ne_nil file i)
        · cases hsome
      · intro hsome
        cases hsome

/-! ## Taking packets -/

theorem Ordered.set (h : r.Ordered file size) {i : Nat} (hi : i < packetCount file)
    (hbase : r.base ≤ i) (hwindow : i < r.base + size) :
    let filled : Receiver := { r with slots := r.slots.set (i - r.base) (numberedPacket file i) }
    filled.Ordered file size ∧ ∀ j, filled.Holds file j ↔ r.Holds file j ∨ j = i := by
  have hlt : i - r.base < r.slots.length := by
    rw [h.size]
    omega
  refine ⟨⟨by simpa using h.size, ?_, h.base, h.written, h.ended⟩, ?_⟩
  · intro j packet hpacket
    rw [List.getElem?_set] at hpacket
    by_cases hj : i - r.base = j
    · rw [if_pos hj, if_pos hlt] at hpacket
      right
      have hsum : r.base + j = i := by omega
      rw [← Option.some.inj hpacket]
      rw [hsum]
      exact ⟨hi, rfl⟩
    · rw [if_neg hj] at hpacket
      exact h.slots j packet hpacket
  · intro j
    simp only [Holds, List.getElem?_set]
    by_cases hj : j = i
    · subst hj
      simp [hbase, hlt]
    · simp only [hj, or_false]
      by_cases hjbase : r.base ≤ j
      · rw [if_neg (by omega)]
      · simp only [hjbase, false_and]

/-- A receiver takes every packet of the file that is not beyond its window, answers it, and from
then on holds it. -/
theorem Ordered.exists_take (h : r.Ordered file size) (hsize : 0 < size)
    (hfits : packetCount file ≤ 65536) {i : Nat} (hi : i < packetCount file)
    (hwindow : i < r.base + size) : ∃ reaction, r.take (numberedPacket file i) = .ok reaction ∧
      reaction.sent = [ackBytes i] ∧ reaction.state.Ordered file size ∧ reaction.state.Waits ∧
      ∀ j, reaction.state.Holds file j ↔ r.Holds file j ∨ j = i := by
  have hlong : ¬ (numberedPacket file i).length < 3 := by
    rw [numberedPacket, length_frame]
    omega
  have hnumber : numberOf (numberedPacket file i) = i := numberOf_numberedPacket file (by omega)
  by_cases hbase : r.base ≤ i
  · have hinside : r.inWindow i = true := by
      simp only [inWindow, h.size, Bool.and_eq_true, decide_eq_true_iff]
      exact ⟨hbase, hwindow⟩
    obtain ⟨hordered, hholds⟩ := h.set hi hbase hwindow
    obtain ⟨reaction, hdeliver, hordered', hwaits, hholds'⟩ := hordered.exists_deliver hsize
    refine ⟨{ reaction with sent := [ackBytes i] }, ?_, rfl, hordered', hwaits, fun j => ?_⟩
    · simp only [take, if_neg hlong, hnumber, hinside, if_true, Bool.or_true]
      rw [hdeliver]
      rfl
    · exact (hholds' j).trans (hholds j)
  · have hinside : r.inWindow i = false := by
      simp only [inWindow, Bool.and_eq_false_iff, decide_eq_false_iff_not]
      exact .inl hbase
    have hbefore : decide (i < r.base) = true := decide_eq_true (by omega)
    obtain ⟨reaction, hdeliver, hordered', hwaits, hholds'⟩ := h.exists_deliver hsize
    refine ⟨{ reaction with sent := [ackBytes i] }, ?_, rfl, hordered', hwaits, fun j => ?_⟩
    · simp only [take, if_neg hlong, hnumber, hinside, hbefore, Bool.false_eq_true, if_false,
        if_true, Bool.or_false]
      rw [hdeliver]
      rfl
    · rw [hholds' j]
      constructor
      · exact Or.inl
      · rintro (hj | rfl)
        · exact hj
        · exact .inl (by omega)

theorem Ordered.written_eq (h : r.Ordered file size) (hwaits : r.Waits)
    (hall : ∀ i < packetCount file, r.Holds file i) : r.written = file := by
  have hlast : r.base = packetCount file := Nat.le_antisymm h.base (hwaits.le_base hall)
  rw [h.written, hlast, firstChunks_packetCount]

end Practicum.Net.Transfer.SelectiveRepeat.Receiver
