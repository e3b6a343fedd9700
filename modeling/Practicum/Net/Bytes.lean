/-! # Bytes -/

namespace Practicum.Net

abbrev Bytes := List UInt8

namespace Bytes

def toNat (bytes : Bytes) : Nat :=
  bytes.foldl (fun n b => n * 256 + b.toNat) 0

def ofNat : Nat → Nat → Bytes
  | 0, _ => []
  | width + 1, n => ofNat width (n / 256) ++ [UInt8.ofNat (n % 256)]

def slice (start stop : Nat) (bytes : Bytes) : Bytes :=
  (bytes.take stop).drop start

def number (position width : Nat) (bytes : Bytes) : Nat :=
  (bytes.slice position (position + width)).toNat

def fill (length : Nat) (bytes : Bytes) : Bytes :=
  bytes ++ List.replicate (length - bytes.length) 0

@[simp]
theorem length_ofNat (width n : Nat) : (ofNat width n).length = width := by
  induction width generalizing n with
  | zero => rfl
  | succ width ih => simp [ofNat, ih]

theorem toNat_append_singleton (bytes : Bytes) (b : UInt8) :
    toNat (bytes ++ [b]) = toNat bytes * 256 + b.toNat := by
  simp [toNat]

theorem toNat_ofNat (width n : Nat) : toNat (ofNat width n) = n % Nat.pow 256 width := by
  simp only [Nat.pow_eq]
  induction width generalizing n with
  | zero => simp [ofNat, toNat, Nat.mod_one]
  | succ width ih =>
    have hlast : (UInt8.ofNat (n % 256)).toNat = n % 256 := by simp
    rw [ofNat, toNat_append_singleton, ih, hlast, Nat.pow_succ', Nat.mod_mul]
    omega

theorem toNat_lt (bytes : Bytes) : toNat bytes < Nat.pow 256 bytes.length := by
  suffices h : ∀ n : Nat, bytes.foldl (fun n b => n * 256 + b.toNat) n
      < (n + 1) * Nat.pow 256 bytes.length by
    simpa [toNat] using h 0
  induction bytes with
  | nil => simp
  | cons b bytes ih =>
    intro n
    have hb : b.toNat < 256 := b.toNat_lt
    calc (b :: bytes).foldl (fun n b => n * 256 + b.toNat) n
        < (n * 256 + b.toNat + 1) * Nat.pow 256 bytes.length := ih _
      _ ≤ ((n + 1) * 256) * Nat.pow 256 bytes.length := Nat.mul_le_mul_right _ (by omega)
      _ = (n + 1) * Nat.pow 256 (b :: bytes).length := by
        simp only [Nat.pow_eq]
        rw [List.length_cons, Nat.pow_succ', Nat.mul_assoc]

end Bytes

end Practicum.Net
