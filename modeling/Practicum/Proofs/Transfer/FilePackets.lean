import Mathlib.Data.List.Basic
import Practicum.Net.Transfer.Thread

/-!
# The packets of a file

The pieces that a sender reads are the chunks of its file in their order, and the last one carries
the mark. A packet gives back what was framed in it.
-/

namespace Practicum.Net.Transfer

open List

def chunk (file : Bytes) (i : Nat) : Bytes :=
  (file.drop (pieceSize * i)).take pieceSize

def chunkCount (file : Bytes) : Nat :=
  (file.length + (pieceSize - 1)) / pieceSize

def firstChunks (file : Bytes) (n : Nat) : Bytes :=
  ((List.range n).map (chunk file)).flatten

variable (file : Bytes)

@[simp]
theorem firstChunks_zero : firstChunks file 0 = [] := rfl

theorem firstChunks_succ (n : Nat) :
    firstChunks file (n + 1) = firstChunks file n ++ chunk file n := by
  simp [firstChunks, range_succ]

theorem flatten_take_drop (size : Nat) (file : Bytes) (n : Nat) :
    ((List.range n).map fun i => (file.drop (size * i)).take size).flatten =
      file.take (size * n) := by
  induction n with
  | zero => simp
  | succ n ih =>
    rw [range_succ, map_append, flatten_append, ih, Nat.mul_succ, take_add]
    simp

theorem firstChunks_eq_take (n : Nat) : firstChunks file n = file.take (pieceSize * n) :=
  flatten_take_drop pieceSize file n

theorem length_le_mul_chunkCount : file.length ≤ pieceSize * chunkCount file := by
  simp only [chunkCount, pieceSize]
  omega

theorem firstChunks_chunkCount : firstChunks file (chunkCount file) = file := by
  rw [firstChunks_eq_take]
  exact take_of_length_le (length_le_mul_chunkCount file)

theorem length_chunk_le (i : Nat) : (chunk file i).length ≤ pieceSize := by
  exact length_take_le _ _

theorem chunk_drop (i : Nat) : chunk (file.drop pieceSize) i = chunk file (i + 1) := by
  rw [chunk, chunk, drop_drop, Nat.mul_succ, Nat.add_comm]

theorem chunkCount_drop {file : Bytes} (h : file ≠ []) :
    chunkCount file = chunkCount (file.drop pieceSize) + 1 := by
  have hpos : 0 < file.length := length_pos_iff.mpr h
  simp only [chunkCount, pieceSize, length_drop]
  omega

theorem chunkCount_eq_zero_iff : chunkCount file = 0 ↔ file = [] := by
  constructor
  · intro h
    by_contra hne
    rw [chunkCount_drop hne] at h
    omega
  · rintro rfl
    rfl

theorem pieces_eq_map_range : pieces pieceSize file = (List.range (chunkCount file)).map
        fun i => (chunk file i, decide (i + 1 = chunkCount file)) := by
  fun_induction pieces pieceSize file with
  | case1 file h =>
    have hfile : file = [] := h.resolve_right (by simp [pieceSize])
    rw [(chunkCount_eq_zero_iff file).2 hfile]
    rfl
  | case2 file h ih =>
    have hfile : file ≠ [] := fun hf => h (.inl hf)
    have hcount := chunkCount_drop hfile
    have hlast : (file.drop pieceSize).isEmpty = decide (0 + 1 = chunkCount file) := by
      rw [Bool.eq_iff_iff, List.isEmpty_iff, decide_eq_true_iff, hcount, ← chunkCount_eq_zero_iff]
      omega
    rw [ih, hlast, hcount, range_succ_eq_map, map_cons, map_map]
    congr 1
    apply map_congr_left
    intro i _
    simp only [Function.comp_apply, chunk_drop, Nat.succ_eq_add_one, Nat.add_right_cancel_iff]

/-! ## Packets -/

theorem length_frame (number mark : Nat) (data : Bytes) :
    (frame number mark data).length = 3 + data.length := by
  simp [frame]
  omega

theorem numberOf_frame {number : Nat} (h : number < 65536) (mark : Nat) (data : Bytes) :
    numberOf (frame number mark data) = number := by
  have htake : (frame number mark data).take 2 = Bytes.ofNat 2 number := by
    simp [frame]
  rw [numberOf, htake, Bytes.toNat_ofNat]
  exact Nat.mod_eq_of_lt (by simpa using h)

theorem markOf_frame (number : Nat) {mark : Nat} (h : mark < 256) (data : Bytes) :
    markOf (frame number mark data) = .ok mark := by
  have hget : (frame number mark data)[2]? = some (UInt8.ofNat mark) := by
    simp [frame, Bytes.ofNat, Nat.mod_eq_of_lt h]
  simp [markOf, hget, Nat.mod_eq_of_lt h]

theorem dataOf_frame (number mark : Nat) (data : Bytes) :
    dataOf (frame number mark data) = data := by
  simp [dataOf, frame, Bytes.ofNat]

theorem take_frame {data : Bytes} (h : data.length ≤ pieceSize) (number mark : Nat) :
    (frame number mark data).take 1027 = frame number mark data := by
  apply take_of_length_le
  rw [length_frame]
  simp only [pieceSize] at h
  omega

/-!
## Numbered packets

A sender with a window builds all packets of its file before it sends the first one. There are
packets only if all numbers fit into two bytes.
-/

open Piece

def packetCount (file : Bytes) : Nat :=
  max (chunkCount file) 1

theorem packetCount_pos : 0 < packetCount file :=
  Nat.lt_of_lt_of_le Nat.zero_lt_one (Nat.le_max_right _ _)

theorem firstChunks_packetCount : firstChunks file (packetCount file) = file := by
  have hle : file.length ≤ pieceSize * packetCount file :=
    calc file.length ≤ pieceSize * chunkCount file := length_le_mul_chunkCount file
      _ ≤ pieceSize * packetCount file := Nat.mul_le_mul_left _ (Nat.le_max_left _ _)
  rw [firstChunks_eq_take]
  exact take_of_length_le hle

def numberedPacket (file : Bytes) (i : Nat) : Bytes :=
  frame i (if i + 1 = packetCount file then 1 else 0) (chunk file i)

theorem numberedPacket_ne_nil (i : Nat) : numberedPacket file i ≠ [] := by
  intro h
  have hlength := congrArg List.length h
  rw [numberedPacket, length_frame] at hlength
  simp only [length_nil] at hlength
  omega

theorem take_numberedPacket (i : Nat) : (numberedPacket file i).take 1027 = numberedPacket file i :=
  take_frame (length_chunk_le file i) _ _

theorem numberOf_numberedPacket {i : Nat} (h : i < 65536) : numberOf (numberedPacket file i) = i :=
  numberOf_frame h _ _

theorem numberedPacket_injective {file : Bytes} {i j : Nat} (hi : i < 65536) (hj : j < 65536)
    (h : numberedPacket file i = numberedPacket file j) : i = j := by
  have hnumber := congrArg numberOf h
  rwa [numberOf_numberedPacket file hi, numberOf_numberedPacket file hj] at hnumber

theorem markOf_numberedPacket (i : Nat) :
    markOf (numberedPacket file i) = .ok (if i + 1 = packetCount file then 1 else 0) := by
  apply markOf_frame
  split <;> decide

theorem marked_numberedPacket_iff (i : Nat) :
    (numberedPacket file i)[2]?.getD 0 ≠ 0 ↔ i + 1 = packetCount file := by
  by_cases hlast : i + 1 = packetCount file <;> simp [numberedPacket, frame, Bytes.ofNat, hlast]

theorem dataOf_numberedPacket (i : Nat) : dataOf (numberedPacket file i) = chunk file i :=
  dataOf_frame _ _ _

theorem toNat_ackBytes {i : Nat} (h : i < 65536) : Bytes.toNat ((ackBytes i).take 2) = i := by
  have hwhole : (ackBytes i).take 2 = ackBytes i := take_of_length_le (by simp [ackBytes])
  rw [hwhole, ackBytes, Bytes.toNat_ofNat]
  exact Nat.mod_eq_of_lt h

def numberedPackets (file : Bytes) : List Bytes :=
  (List.range (packetCount file)).map (numberedPacket file)

@[simp]
theorem length_numberedPackets : (numberedPackets file).length = packetCount file := by
  simp [numberedPackets]

theorem getElem?_numberedPackets (i : Nat) : (numberedPackets file)[i]? =
      if i < packetCount file then some (numberedPacket file i) else none := by
  by_cases hi : i < packetCount file <;> simp [numberedPackets, hi]

/-! ## Building the packets -/

theorem fullChunks_eq {size length : Nat} (hlength : length ≠ 0) :
    fullChunks size length = ((length - 1) / size : Nat) := by
  obtain ⟨n, rfl⟩ := Nat.exists_eq_add_one_of_ne_zero hlength
  have hcount : ((n + 1 : Nat) : Int).fdiv size = ((n + 1) / size : Nat) :=
    Int.fdiv_eq_ediv_of_nonneg _ (Int.natCast_nonneg size)
  have hexact : ((n + 1) / size : Nat) * (size : Int) = (n + 1 : Nat) ↔ size ∣ n + 1 := by
    rw [Nat.dvd_iff_div_mul_eq]
    norm_cast
  simp only [fullChunks, hcount, hexact, Nat.add_sub_cancel]
  rw [Nat.succ_div]
  split <;> simp

/-- All chunks but the last are full, and the last one is what remains. -/
theorem chunks_eq {size : Nat} (hsize : 0 < size) (file : Bytes) : chunks size file =
      .ok ((List.range ((file.length - 1) / size)).map
          (fun i => ((file.drop (size * i)).take size, false)) ++
        [(file.drop (size * ((file.length - 1) / size)), true)]) := by
  have hne : (size : Int) ≠ 0 := by omega
  rw [chunks, if_neg hne]
  by_cases hfile : file = []
  · subst hfile
    have hnone : fullChunks size 0 = -1 := by simp [fullChunks]
    simp [hnone, dropFrom]
  · rw [fullChunks_eq (by simpa using hfile)]
    generalize (file.length - 1) / size = n
    simp only [dropFrom, ← Int.natCast_mul, Int.natCast_nonneg, if_true, Int.toNat_natCast,
      Bytes.slice, drop_take, Nat.add_sub_cancel_left, Nat.mul_comm]

theorem length_le_of_div (size length : Nat) (hsize : 0 < size) :
    length ≤ size * ((length - 1) / size) + size := by
  have := Nat.lt_mul_div_succ (length - 1) hsize
  rw [Nat.mul_add, Nat.mul_one] at this
  omega

theorem chunks_pieceSize : chunks pieceSize file = .ok ((List.range (packetCount file)).map
      fun i => (chunk file i, decide (i + 1 = packetCount file))) := by
  have hcount : packetCount file = (file.length - 1) / pieceSize + 1 := by
    simp only [packetCount, chunkCount, pieceSize]
    omega
  have hlast := length_le_of_div pieceSize file.length (by decide)
  rw [chunks_eq (by decide), hcount, range_succ, map_append]
  generalize (file.length - 1) / pieceSize = n at hlast
  congr 2
  · apply map_congr_left
    intro i hi
    have hi := mem_range.mp hi
    rw [chunk, decide_eq_false (by omega)]
  · rw [map_singleton, chunk, take_of_length_le (by rw [length_drop]; omega), decide_eq_true rfl]

theorem packetsFrom_eq (pieces : List Piece) (number : Nat) : packetsFrom number pieces =
      if pieces = [] ∨ number + pieces.length ≤ 65536 then
        .ok (pieces.zipIdx number |>.map fun p => frame p.2 (mark p.1) p.1.1)
      else .error .numberTooLarge := by
  induction pieces generalizing number with
  | nil => rfl
  | cons p rest ih =>
    have hmark : mark p < 256 := by
      simp only [mark]
      split <;> decide
    have hpacket : packet number p = if number < 65536 then .ok (frame number (mark p) p.1)
        else .error .numberTooLarge := by
      by_cases hnumber : number < 65536
      · simp only [packet, encode, if_pos hnumber, Int.toNat_natCast]
        exact if_pos (by omega)
      · simp only [packet, encode, if_neg hnumber]
        exact if_neg (by omega)
    simp only [packetsFrom, hpacket, ih, length_cons]
    by_cases hfits : number + (rest.length + 1) ≤ 65536
    · rw [if_pos (by omega), if_pos (.inr (by omega)), if_pos (.inr hfits)]
      rfl
    have hcons : ¬ (p :: rest = [] ∨ number + (rest.length + 1) ≤ 65536) := by
      simpa using hfits
    rw [if_neg hcons]
    by_cases hnumber : number < 65536
    · have hrest : rest ≠ [] := by
        rintro rfl
        simp only [length_nil] at hfits
        omega
      rw [if_pos hnumber, if_neg (by simp only [hrest, false_or]; omega)]
      rfl
    · rw [if_neg hnumber]
      rfl

theorem filePackets_eq : filePackets file =
      if packetCount file ≤ 65536 then .ok (numberedPackets file) else .error .numberTooLarge := by
  have hne : (List.range (packetCount file)).map
      (fun i => (chunk file i, decide (i + 1 = packetCount file))) ≠ [] := by
    have hpos := packetCount_pos file
    simp only [ne_eq, map_eq_nil_iff, range_eq_nil]
    omega
  have hframes : (List.range (packetCount file)).zipIdx.map
      ((fun p : Piece × Nat => frame p.2 (mark p.1) p.1.1) ∘
        Prod.map (fun i => (chunk file i, decide (i + 1 = packetCount file))) id) =
      numberedPackets file := by
    apply ext_getElem?
    intro i
    rw [getElem?_numberedPackets]
    by_cases hi : i < packetCount file
    · simp [hi, numberedPacket, mark]
    · simp [hi]
  rw [filePackets, chunks_pieceSize]
  simp only [bind, Except.bind, packetsFrom_eq, hne, false_or, Nat.zero_add, length_map,
    length_range, zipIdx_map, map_map, hframes]

/-- A file has packets exactly if all numbers fit, and they are the numbered ones. -/
theorem filePackets_eq_ok_iff (packets : List Bytes) :
    filePackets file = .ok packets ↔ packetCount file ≤ 65536 ∧ packets = numberedPackets file := by
  rw [filePackets_eq]
  by_cases hfits : packetCount file ≤ 65536
  · rw [if_pos hfits]
    simp [hfits, eq_comm]
  · rw [if_neg hfits]
    simp [hfits]

/-- Cutting a file and joining what was cut are inverse, for every size of a piece, and so are
packing the pieces and reading the packets: the numbers are too large exactly if there are more than
65536 pieces, and otherwise every packet gives back the number, the mark and the bytes of its
piece. -/
theorem packets_give_back (file : Bytes) :
    (∀ size : Nat, 0 < size → ∃ (full : List Bytes) (last : Bytes),
      chunks size file = .ok (full.map (fun piece => (piece, false)) ++ [(last, true)]) ∧
      full.flatten ++ last = file ∧ (∀ piece ∈ full, piece.length = size) ∧
      last.length ≤ size ∧ (last = [] ↔ file = [])) ∧
    ∃ cut, chunks pieceSize file = .ok cut ∧
      (filePackets file = .error .numberTooLarge ↔ 65536 < cut.length) ∧
      (cut.length ≤ 65536 → ∃ packets, filePackets file = .ok packets ∧
        packets.length = cut.length ∧ ∀ (i : Nat) (piece : Piece), cut[i]? = some piece →
          ∃ packet, packets[i]? = some packet ∧ packet.take 1027 = packet ∧
            numberOf packet = i ∧ markOf packet = .ok (mark piece) ∧ dataOf packet = piece.1) := by
  refine ⟨fun size hsize => ?_, _, chunks_pieceSize file, ?_, fun hfits => ?_⟩
  · have hcut := chunks_eq hsize file
    have hlast := length_le_of_div size file.length hsize
    have hbefore := Nat.mul_div_le (file.length - 1) size
    generalize (file.length - 1) / size = n at hcut hlast hbefore
    refine ⟨(List.range n).map fun i => (file.drop (size * i)).take size, file.drop (size * n),
      hcut.trans (by rw [map_map]; rfl), ?_, ?_, ?_, ?_⟩
    · exact (congrArg (· ++ _) (flatten_take_drop size file n)).trans (take_append_drop ..)
    · rw [forall_mem_map]
      intro i hi
      have hi : size * (i + 1) ≤ size * n := Nat.mul_le_mul_left _ (mem_range.mp hi)
      rw [Nat.mul_succ] at hi
      rw [length_take, length_drop]
      omega
    · rw [length_drop]
      omega
    · rw [drop_eq_nil_iff, ← length_eq_zero_iff]
      have := Nat.mul_eq_zero (n := size) (m := n)
      omega
  · rw [filePackets_eq, length_map, length_range]
    split
    · next hfits => exact iff_of_false (by simp) (Nat.not_lt.mpr hfits)
    · next hfits => exact iff_of_true rfl (Nat.lt_of_not_le hfits)
  · rw [length_map, length_range] at hfits
    refine ⟨_, (filePackets_eq_ok_iff file _).mpr ⟨hfits, rfl⟩, by simp, fun i piece hpiece => ?_⟩
    have hi : i < packetCount file := by simpa using (List.getElem?_eq_some_iff.mp hpiece).1
    obtain rfl : (chunk file i, decide (i + 1 = packetCount file)) = piece := by
      simpa [hi] using hpiece
    refine ⟨numberedPacket file i, by rw [getElem?_numberedPackets, if_pos hi],
      take_numberedPacket file i, numberOf_numberedPacket file (by omega), ?_,
      dataOf_numberedPacket file i⟩
    rw [markOf_numberedPacket]
    simp [mark]

theorem packets_give_back_threeBytes : ∃ (full : List Bytes) (last : Bytes),
    chunks 2 [7, 8, 9] = .ok (full.map (fun piece => (piece, false)) ++ [(last, true)]) ∧
      full.flatten ++ last = [7, 8, 9] := by
  obtain ⟨full, last, hcut, hjoined, -⟩ := (packets_give_back [7, 8, 9]).1 2 (by decide)
  exact ⟨full, last, hcut, hjoined⟩

def twoPackets : Bytes :=
  List.replicate 1025 7

theorem packetCount_twoPackets : packetCount twoPackets = 2 := by
  rw [packetCount, chunkCount, twoPackets, length_replicate]
  rfl

theorem filePackets_twoPackets : filePackets twoPackets = .ok (numberedPackets twoPackets) := by
  rw [filePackets_eq_ok_iff, packetCount_twoPackets]
  exact ⟨by decide, rfl⟩

end Practicum.Net.Transfer
