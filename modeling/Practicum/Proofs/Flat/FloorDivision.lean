import Mathlib.Algebra.Group.Int.Units
import Mathlib.Tactic.Linarith
import Mathlib.Tactic.Ring

/-!
# Quotients of quotients and remainders of remainders

Which of the literals `a`, `b` and `c` make the quotient or the remainder of three numbers the same
number after the three were put together in another order. Quotients are rounded down, remainders
have the sign of the divisor, and there is neither for the divisor zero.
-/

namespace Practicum.Flat.Folding

open Int

variable {m n a b c : Int}

/-! ## Partial results -/

/-- The second result is there and the same wherever the first one is there. -/
def Within (p q : Option Int) : Prop :=
  ∀ n, p = some n → q = some n

theorem within_ite_iff {p q : Prop} [Decidable p] [Decidable q] :
    Within (if p then some m else none) (if q then some n else none) ↔ (p → q ∧ n = m) := by
  by_cases hp : p <;> by_cases hq : q <;> simp [Within]

def quotient? (m n : Int) : Option Int :=
  if n = 0 then none else some (m.fdiv n)

def remainder? (m n : Int) : Option Int :=
  if n = 0 then none else some (m.fmod n)

theorem quotient?_eq (m n : Int) : quotient? m n = if n ≠ 0 then some (m.fdiv n) else none :=
  (ite_not ..).symm

theorem remainder?_eq (m n : Int) : remainder? m n = if n ≠ 0 then some (m.fmod n) else none :=
  (ite_not ..).symm

/-! ## Known quotients and remainders -/

theorem fdiv_fmod_eq {q r : Int} (h : r + n * q = m) (hr : 0 ≤ r ∧ r < n ∨ n < r ∧ r ≤ 0) :
    m.fdiv n = q ∧ m.fmod n = r := by
  rcases hr with ⟨h0, hlt⟩ | ⟨hlt, h0⟩
  · exact (Int.fdiv_fmod_unique (by omega)).2 ⟨h, h0, hlt⟩
  · exact (Int.fdiv_fmod_unique' (by omega)).2 ⟨h, hlt, h0⟩

theorem fdiv_of_between (h : 0 ≤ m ∧ m < n ∨ n < m ∧ m ≤ 0) : m.fdiv n = 0 :=
  (fdiv_fmod_eq (by ring) h).1

theorem fmod_of_between (h : 0 ≤ m ∧ m < n ∨ n < m ∧ m ≤ 0) : m.fmod n = m :=
  (fdiv_fmod_eq (q := 0) (by ring) h).2

theorem fdiv_of_across (h : m < 0 ∧ 0 ≤ m + n ∨ 0 < m ∧ m + n ≤ 0) : m.fdiv n = -1 :=
  (fdiv_fmod_eq (r := m + n) (by ring) (by omega)).1

theorem fmod_of_across (h : m < 0 ∧ 0 ≤ m + n ∨ 0 < m ∧ m + n ≤ 0) : m.fmod n = m + n :=
  (fdiv_fmod_eq (q := -1) (by ring) (by omega)).2

theorem fmod_range (m : Int) (h : n ≠ 0) :
    0 ≤ m.fmod n ∧ m.fmod n < n ∨ n < m.fmod n ∧ m.fmod n ≤ 0 := by
  rcases lt_or_gt_of_ne h with h | h
  · exact .inr ((Int.fdiv_fmod_unique' h).1 ⟨rfl, rfl⟩).2
  · exact .inl ((Int.fdiv_fmod_unique h).1 ⟨rfl, rfl⟩).2

/-- A number of this size with the sign of another one. -/
theorem exists_signed (m : Int) (h : n ≠ 0) : ∃ s, s = m ∧ 0 < n ∨ s = -m ∧ n < 0 := by
  rcases lt_or_gt_of_ne h with h | h
  · exact ⟨-m, .inr ⟨rfl, h⟩⟩
  · exact ⟨m, .inl ⟨rfl, h⟩⟩

theorem fdiv_neg_one (m : Int) : m.fdiv (-1) = -m :=
  (fdiv_fmod_eq (r := 0) (by ring) (by omega)).1

theorem fmod_neg_one (m : Int) : m.fmod (-1) = 0 :=
  (fdiv_fmod_eq (q := -m) (by ring) (by omega)).2

theorem fmod_of_isUnit (m : Int) (h : n = 1 ∨ n = -1) : m.fmod n = 0 := by
  rcases h with rfl | rfl
  · exact fmod_one m
  · exact fmod_neg_one m

/-! ## Two divisions in a row -/

/-- `(a // b) // c`. -/
def quotientsLeft? (a b c : Int) : Option Int :=
  (quotient? a b).bind (quotient? · c)

/-- `a // (b // c)`. -/
def quotientsRight? (a b c : Int) : Option Int :=
  (quotient? b c).bind (quotient? a ·)

/-- `(a % b) % c`. -/
def remaindersLeft? (a b c : Int) : Option Int :=
  (remainder? a b).bind (remainder? · c)

/-- `a % (b % c)`. -/
def remaindersRight? (a b c : Int) : Option Int :=
  (remainder? b c).bind (remainder? a ·)

theorem quotientsLeft?_eq (a b c : Int) : quotientsLeft? a b c =
    if b ≠ 0 ∧ c ≠ 0 then some ((a.fdiv b).fdiv c) else none := by
  by_cases hb : b = 0 <;> simp [quotientsLeft?, quotient?_eq, hb]

theorem quotientsRight?_eq (a b c : Int) : quotientsRight? a b c =
    if c ≠ 0 ∧ b.fdiv c ≠ 0 then some (a.fdiv (b.fdiv c)) else none := by
  by_cases hc : c = 0 <;> simp [quotientsRight?, quotient?_eq, hc]

theorem remaindersLeft?_eq (a b c : Int) : remaindersLeft? a b c =
    if b ≠ 0 ∧ c ≠ 0 then some ((a.fmod b).fmod c) else none := by
  by_cases hb : b = 0 <;> simp [remaindersLeft?, remainder?_eq, hb]

theorem remaindersRight?_eq (a b c : Int) : remaindersRight? a b c =
    if c ≠ 0 ∧ b.fmod c ≠ 0 then some (a.fmod (b.fmod c)) else none := by
  by_cases hc : c = 0 <;> simp [remaindersRight?, remainder?_eq, hc]

/-! ## Quotients on the left -/

theorem within_quotientsLeft_quotient_iff : Within (quotientsLeft? a b c) (quotient? m n) ↔
      (b ≠ 0 → c ≠ 0 → n ≠ 0 ∧ m.fdiv n = (a.fdiv b).fdiv c) := by
  rw [quotientsLeft?_eq, quotient?_eq, within_ite_iff, and_imp]

theorem within_quotientsLeft_swap_iff : Within (quotientsLeft? a b c) (quotientsLeft? a c b) ↔
      (b ≠ 0 → c ≠ 0 → (a.fdiv c).fdiv b = (a.fdiv b).fdiv c) := by
  rw [quotientsLeft?_eq, quotientsLeft?_eq, within_ite_iff, and_imp]
  exact forall₂_congr fun hb hc => and_iff_right ⟨hc, hb⟩

theorem quotient_mul_bc_iff (b c : Int) :
    (∀ a, Within (quotientsLeft? a b c) (quotient? (b * c) a)) ↔ b = 0 ∨ c = 0 := by
  simp only [within_quotientsLeft_quotient_iff]
  constructor
  · intro h
    by_contra hne
    obtain ⟨hb, hc⟩ := not_or.mp hne
    exact (h 0 hb hc).1 rfl
  · rintro (rfl | rfl) a <;> simp

theorem quotient_mul_c_iff (c : Int) :
    (∀ a b, Within (quotientsLeft? a b c) (quotient? (b * c) a)) ↔ c = 0 := by
  rw [forall_comm]
  simp only [quotient_mul_bc_iff]
  exact ⟨fun h => (h 1).resolve_left one_ne_zero, fun hc _ => .inr hc⟩

theorem quotient_mul_ab_iff (a b : Int) :
    (∀ c, Within (quotientsLeft? a b c) (quotient? (b * c) a)) ↔ b = 0 := by
  simp only [within_quotientsLeft_quotient_iff]
  constructor
  · intro h
    by_contra hb
    have ha := (h 1 hb one_ne_zero).1
    have heq := (h (2 * a) hb (by omega)).2
    rw [← mul_assoc, mul_fdiv_cancel _ ha] at heq
    -- The divisor `2 * a` is further away from zero than the inner quotient.
    have hle := natAbs_fdiv_le_natAbs a b
    have hsmall : (a.fdiv b).fdiv (2 * a) = 0 ∨ (a.fdiv b).fdiv (2 * a) = -1 := by
      by_cases hsame : 0 ≤ a.fdiv b ∧ 0 < a ∨ a.fdiv b ≤ 0 ∧ a < 0
      · exact .inl (fdiv_of_between (by omega))
      · exact .inr (fdiv_of_across (by omega))
    omega
  · rintro rfl c
    simp

theorem not_within_quotient_mul (a : Int) :
    ¬ ∀ b c, Within (quotientsLeft? a b c) (quotient? (b * c) a) := by
  simp only [quotient_mul_ab_iff]
  exact fun h => one_ne_zero (h 1)

/-- A factor that both numbers have in common is taken out of a quotient, below it or before it. -/
theorem fdiv_fdiv_of_mul (k : Int) (hb : b ≠ 0) (hc : 0 < c) :
    ((c * k).fdiv b).fdiv c = k.fdiv b := by
  have hpos (b k : Int) (hb : 0 < b) : ((c * k).fdiv b).fdiv c = k.fdiv b := by
    rw [fdiv_eq_ediv_of_nonneg _ hb.le, fdiv_eq_ediv_of_nonneg _ hc.le,
      fdiv_eq_ediv_of_nonneg _ hb.le, ediv_ediv_of_nonneg hb.le, mul_comm b,
      mul_ediv_mul_of_pos _ _ hc]
  rcases lt_or_gt_of_ne hb with _ | hgt
  · rw [← Int.neg_fdiv_neg (c * k), ← Int.neg_fdiv_neg k, ← mul_neg]
    exact hpos (-b) (-k) (by omega)
  · exact hpos b k hgt

theorem quotientsLeft_swap_ac_iff (a c : Int) :
    (∀ b, Within (quotientsLeft? a b c) (quotientsLeft? a c b)) ↔
      c = 0 ∨ a = 0 ∨ 0 < c ∧ c ∣ a := by
  simp only [within_quotientsLeft_swap_iff]
  constructor
  · intro h
    by_contra hne
    obtain ⟨hc, ha, hdvd⟩ : c ≠ 0 ∧ a ≠ 0 ∧ ¬(0 < c ∧ c ∣ a) := by
      simpa only [not_or] using hne
    have hswap (b : Int) (hb : b ≠ 0) := h b hb hc
    have hle := natAbs_fdiv_le_natAbs a c
    rcases lt_or_gt_of_ne hc with _ | hgt
    · -- A divisor further away from zero than `a` leaves only the sign of the inner quotient.
      rcases lt_or_gt_of_ne ha with _ | _
      · by_cases hsmall : c < a
        · have heq := hswap (-1) (by decide)
          rw [fdiv_neg_one, fdiv_neg_one, fdiv_of_between (by omega),
            fdiv_of_across (by omega)] at heq
          omega
        · have hquot : 0 < a.fdiv c := by
            have hm := fmod_add_mul_fdiv a c
            have hr := fmod_range a hc
            by_contra hle
            have : 0 ≤ c * a.fdiv c := by nlinarith
            omega
          have heq := hswap (a - 1) (by omega)
          rw [fdiv_of_across (m := a.fdiv c) (by omega),
            fdiv_of_between (m := a) (by omega), zero_fdiv] at heq
          omega
      · have hquot : a.fdiv c < 0 := by
          rw [← Int.neg_fdiv_neg]
          exact Int.fdiv_neg_of_neg_of_pos (by omega) (by omega)
        have heq := hswap (a + 1) (by omega)
        rw [fdiv_of_across (m := a.fdiv c) (by omega),
          fdiv_of_between (m := a) (by omega), zero_fdiv] at heq
        omega
    · have heq := hswap (-1) (by decide)
      rw [fdiv_neg_one, fdiv_neg_one, neg_fdiv] at heq
      omega
  · rintro (rfl | rfl | ⟨hc, k, rfl⟩) b
    · simp
    · simp
    · intro hb _
      rw [fdiv_fdiv_of_mul k hb hc, mul_fdiv_cancel_left _ hc.ne']

theorem quotientsLeft_swap_b_iff (b : Int) :
    (∀ a c, Within (quotientsLeft? a b c) (quotientsLeft? a c b)) ↔ b = 0 ∨ b = 1 := by
  have hcomm (a c : Int) : Within (quotientsLeft? a b c) (quotientsLeft? a c b) ↔
      Within (quotientsLeft? a c b) (quotientsLeft? a b c) := by
    simp only [within_quotientsLeft_swap_iff]
    tauto
  simp only [hcomm, quotientsLeft_swap_ac_iff]
  constructor
  · intro h
    have hone := h 1
    have hle := Int.le_of_dvd (a := b) one_pos
    omega
  · rintro (rfl | rfl) a <;> simp

/-! ## Quotients on the right -/

theorem ne_zero_of_fdiv_ne_zero (h : b.fdiv c ≠ 0) : b ≠ 0 := by
  rintro rfl
  exact h (zero_fdiv c)

theorem within_quotientsRight_mul_iff :
    Within (quotientsRight? a b c) ((quotient? a b).map (· * c)) ↔
      (c ≠ 0 → b.fdiv c ≠ 0 → a.fdiv b * c = a.fdiv (b.fdiv c)) := by
  have hmap : (quotient? a b).map (· * c) = if b ≠ 0 then some (a.fdiv b * c) else none := by
    by_cases hb : b = 0 <;> simp [quotient?_eq, hb]
  rw [quotientsRight?_eq, hmap, within_ite_iff, and_imp]
  exact forall₂_congr fun _ hbc => and_iff_right (ne_zero_of_fdiv_ne_zero hbc)

theorem within_quotientsRight_quotient_iff : Within (quotientsRight? a b c) (quotient? (a * c) b) ↔
      (c ≠ 0 → b.fdiv c ≠ 0 → (a * c).fdiv b = a.fdiv (b.fdiv c)) := by
  rw [quotientsRight?_eq, quotient?_eq, within_ite_iff, and_imp]
  exact forall₂_congr fun _ hbc => and_iff_right (ne_zero_of_fdiv_ne_zero hbc)

theorem fdiv_neg_two_mul (hb : b ≠ 0) : b.fdiv (-2 * b) = -1 :=
  fdiv_of_across (by omega)

theorem mul_ab_iff (a b : Int) :
    (∀ c, Within (quotientsRight? a b c) ((quotient? a b).map (· * c))) ↔ a = 0 ∨ b = 0 := by
  simp only [within_quotientsRight_mul_iff]
  constructor
  · intro h
    by_contra hne
    obtain ⟨_, hb⟩ := not_or.mp hne
    have hinner := fdiv_neg_two_mul hb
    have heq := h (-2 * b) (by omega) (by rw [hinner]; decide)
    rw [hinner, fdiv_neg_one] at heq
    -- So the multiple of `b` in `a` is as large as the remainder, and both are zero.
    have hdiv := fmod_add_mul_fdiv a b
    have hrange := fmod_range a hb
    have hq : a.fdiv b = 0 := by
      rcases hrange with ⟨h0, hlt⟩ | ⟨hlt, h0⟩
      all_goals
        have : 0 ≤ a.fdiv b := by nlinarith
        have : a.fdiv b < 1 := by nlinarith
        omega
    rw [hq] at heq
    omega
  · rintro (rfl | rfl) c
    · simp
    · simp

theorem mul_a_iff (a : Int) :
    (∀ b c, Within (quotientsRight? a b c) ((quotient? a b).map (· * c))) ↔ a = 0 := by
  simp only [mul_ab_iff]
  exact ⟨fun h => (h 1).resolve_right one_ne_zero, fun ha _ => .inl ha⟩

theorem mul_bc_iff (b c : Int) :
    (∀ a, Within (quotientsRight? a b c) ((quotient? a b).map (· * c))) ↔
      c = 0 ∨ b.fdiv c = 0 ∨ c = 1 ∨ c = -1 ∧ (b = 1 ∨ b = -1) := by
  simp only [within_quotientsRight_mul_iff]
  constructor
  · intro h
    by_contra hne
    obtain ⟨hc, hbc, hc1, hneg⟩ : c ≠ 0 ∧ b.fdiv c ≠ 0 ∧ c ≠ 1 ∧ ¬(c = -1 ∧ (b = 1 ∨ b = -1)) := by
      simpa only [not_or] using hne
    have heq (a : Int) := h a hc hbc
    have hunit : c = 1 ∨ c = -1 := by
      have hone := heq (b.fdiv c)
      rw [Int.fdiv_self hbc] at hone
      exact Int.isUnit_iff.1 (IsUnit.of_mul_eq_one_right _ hone)
    obtain rfl : c = -1 := hunit.resolve_left hc1
    have hb : b ≠ 0 := ne_zero_of_fdiv_ne_zero hbc
    obtain ⟨s, _⟩ := exists_signed 1 hb
    have hone := heq s
    rw [fdiv_neg_one, fdiv_of_between (n := b) (by omega),
      fdiv_of_across (n := -b) (by omega)] at hone
    omega
  · rintro (rfl | hbc | rfl | ⟨rfl, rfl | rfl⟩) a
    · simp
    · simp [hbc]
    · simp
    all_goals simp [fdiv_neg_one]

theorem mul_c_iff (c : Int) :
    (∀ a b, Within (quotientsRight? a b c) ((quotient? a b).map (· * c))) ↔ c = 0 ∨ c = 1 := by
  rw [forall_comm]
  simp only [mul_bc_iff]
  refine ⟨fun h => ?_, fun hc _ => by omega⟩
  by_contra hne
  obtain ⟨hc, _⟩ := not_or.mp hne
  have htwice := mul_fdiv_cancel 2 hc
  have := h (2 * c)
  omega

theorem quotient_mul_right_b_iff (b : Int) :
    (∀ a c, Within (quotientsRight? a b c) (quotient? (a * c) b)) ↔ b = 0 := by
  simp only [within_quotientsRight_quotient_iff]
  constructor
  · intro h
    by_contra hb
    have hinner := fdiv_neg_two_mul hb
    have heq := h 1 (-2 * b) (by omega) (by rw [hinner]; decide)
    rw [hinner, fdiv_neg_one, one_mul, mul_fdiv_cancel _ hb] at heq
    omega
  · rintro rfl a c
    simp

theorem quotient_mul_right_ac_iff (a c : Int) :
    (∀ b, Within (quotientsRight? a b c) (quotient? (a * c) b)) ↔
      a = 0 ∨ c = 0 ∨ c = 1 ∨ c = -1 := by
  simp only [within_quotientsRight_quotient_iff]
  constructor
  · intro h
    by_contra hne
    obtain ⟨ha, hc, hc1, hneg⟩ : a ≠ 0 ∧ c ≠ 0 ∧ c ≠ 1 ∧ c ≠ -1 := by
      simpa only [not_or] using hne
    rcases lt_or_gt_of_ne hc with _ | _
    · have hinner : (1 : Int).fdiv c = -1 := fdiv_of_across (by omega)
      have heq := h 1 hc (by rw [hinner]; decide)
      rw [hinner, fdiv_neg_one, Int.fdiv_one] at heq
      have : a * (c + 1) = 0 := by linarith
      rcases mul_eq_zero.1 this with h | h <;> omega
    · have hinner : (-1 : Int).fdiv c = -1 := fdiv_of_across (by omega)
      have heq := h (-1) hc (by rw [hinner]; decide)
      rw [hinner, fdiv_neg_one, fdiv_neg_one] at heq
      have : a * (c - 1) = 0 := by linarith
      rcases mul_eq_zero.1 this with h | h <;> omega
  · rintro (rfl | rfl | rfl | rfl) b
    · simp
    · simp
    · simp
    · intro _ _
      rw [fdiv_neg_one, mul_neg_one, ← Int.neg_fdiv_neg a, neg_neg]

/-! ## Remainders on the left -/

theorem within_remaindersLeft_iff {x y z : Int} :
    Within (remaindersLeft? a b c) (remaindersLeft? x y z) ↔
      (b ≠ 0 → c ≠ 0 → y ≠ 0 ∧ z ≠ 0 ∧ (x.fmod y).fmod z = (a.fmod b).fmod c) := by
  rw [remaindersLeft?_eq, remaindersLeft?_eq, within_ite_iff, and_imp, and_assoc]

theorem within_remaindersLeft_remainder_iff : Within (remaindersLeft? a b c) (remainder? a n) ↔
      (b ≠ 0 → c ≠ 0 → n ≠ 0 ∧ a.fmod n = (a.fmod b).fmod c) := by
  rw [remaindersLeft?_eq, remainder?_eq, within_ite_iff, and_imp]

theorem remaindersLeft_rotate_c_iff (c : Int) :
    (∀ a b, Within (remaindersLeft? a b c) (remaindersLeft? b c a)) ↔ c = 0 := by
  simp only [within_remaindersLeft_iff]
  constructor
  · intro h
    by_contra hc
    exact (h 0 1 one_ne_zero hc).2.1 rfl
  · rintro rfl a b
    simp

theorem exists_fmod_isUnit (hb : b ≠ 0) :
    ∃ c, c ≠ 0 ∧ (b.fmod c = 1 ∨ b.fmod c = -1) ∧ (c = -b - 1 ∧ 0 < b ∨ c = -b + 1 ∧ b < 0) := by
  obtain ⟨s, _⟩ := exists_signed 1 hb
  refine ⟨-b - s, by omega, ?_, by omega⟩
  rw [fmod_of_across (by omega)]
  omega

theorem remaindersLeft_rotate_ab_iff (a b : Int) :
    (∀ c, Within (remaindersLeft? a b c) (remaindersLeft? b c a)) ↔
      b = 0 ∨ (a = 1 ∨ a = -1) ∧ (b = 1 ∨ b = -1) := by
  simp only [within_remaindersLeft_iff]
  constructor
  · intro h
    by_cases hb : b = 0
    · exact .inl hb
    right
    have heq (c : Int) (hc : c ≠ 0) := (h c hb hc).2.2
    have hdvd : b ∣ a := by
      have hself := heq b hb
      rw [fmod_self, fmod_fmod] at hself
      exact dvd_of_fmod_eq_zero hself.symm
    obtain ⟨c, hc, hunit, -⟩ := exists_fmod_isUnit hb
    have hzero := heq c hc
    rw [fmod_eq_zero_of_dvd hdvd] at hzero
    have haunit : IsUnit a := isUnit_of_dvd_unit (dvd_of_fmod_eq_zero hzero) (isUnit_iff.2 hunit)
    exact ⟨isUnit_iff.1 haunit, isUnit_iff.1 (isUnit_of_dvd_unit hdvd haunit)⟩
  · rintro (rfl | ⟨ha, hb⟩) c
    · simp
    · intro _ hc
      refine ⟨hc, by omega, ?_⟩
      rw [fmod_of_isUnit _ ha, fmod_of_isUnit _ hb, zero_fmod]

theorem not_within_remaindersLeft_rotate (a : Int) :
    ¬ ∀ b c, Within (remaindersLeft? a b c) (remaindersLeft? b c a) := by
  simp only [remaindersLeft_rotate_ab_iff]
  intro h
  have := h 2
  omega

theorem exists_fmod_fmod_ne (ha : a ≠ 0) (hc : 1 < c) :
    ∃ b, b ≠ 0 ∧ (a.fmod c).fmod b ≠ (a.fmod b).fmod c := by
  have hc0 : c ≠ 0 := by omega
  have hrange := fmod_range a hc0
  have hnonneg (n : Int) := fmod_range n hc0
  rcases lt_or_gt_of_ne ha with _ | _
  · -- `b` is above everything and one more than a multiple of `c`.
    have hlarge : c - a < c * (1 - a) + 1 := by nlinarith
    refine ⟨c * (1 - a) + 1, by omega, ?_⟩
    rw [fmod_of_between (m := a.fmod c) (by omega),
      fmod_of_across (m := a) (n := c * (1 - a) + 1) (by omega)]
    intro heq
    have hone : (a + (c * (1 - a) + 1)).fmod c = (a + 1).fmod c := by
      rw [show a + (c * (1 - a) + 1) = a + 1 + c * (1 - a) by ring, add_mul_fmod_self_left]
    have hdvd : c ∣ 1 := by
      have h1 := fmod_add_mul_fdiv a c
      have h2 := fmod_add_mul_fdiv (a + 1) c
      exact ⟨(a + 1).fdiv c - a.fdiv c, by rw [mul_sub]; omega⟩
    have := Int.le_of_dvd one_pos hdvd
    omega
  · have hlarge : c + a ≤ c * a + 1 := by nlinarith
    refine ⟨-(c * a + 1), by omega, ?_⟩
    rw [fmod_of_across (m := a) (n := -(c * a + 1)) (by omega)]
    intro heq
    have hone : (a + -(c * a + 1)).fmod c = (a - 1).fmod c := by
      rw [show a + -(c * a + 1) = a - 1 + c * -a by ring, add_mul_fmod_self_left]
    by_cases hdvd : a.fmod c = 0
    · rw [hdvd, zero_fmod] at heq
      have h1 := Int.dvd_of_fmod_eq_zero hdvd
      have h2 := Int.dvd_of_fmod_eq_zero heq.symm
      have h3 : c ∣ 1 := by simpa using Int.dvd_sub h1 h2
      have := Int.le_of_dvd one_pos h3
      omega
    · rw [fmod_of_across (m := a.fmod c) (by omega)] at heq
      have := hnonneg (a - 1)
      omega

theorem remaindersLeft_swap_ac_iff (a c : Int) :
    (∀ b, Within (remaindersLeft? a b c) (remaindersLeft? a c b)) ↔
      a = 0 ∨ c = 0 ∨ c = 1 ∨ c = -1 := by
  simp only [within_remaindersLeft_iff]
  constructor
  · intro h
    by_contra hne
    obtain ⟨ha, hc, hc1, hneg⟩ : a ≠ 0 ∧ c ≠ 0 ∧ c ≠ 1 ∧ c ≠ -1 := by
      simpa only [not_or] using hne
    have heq (b : Int) (hb : b ≠ 0) := (h b hb hc).2.2
    rcases lt_or_gt_of_ne hc with _ | _
    · obtain ⟨b, hb, hdiff⟩ := exists_fmod_fmod_ne (neg_ne_zero.2 ha) (show 1 < -c by omega)
      have := heq (-b) (neg_ne_zero.2 hb)
      apply hdiff
      rw [← neg_neg b, Int.neg_fmod_neg, Int.neg_fmod_neg, Int.neg_fmod_neg, Int.neg_fmod_neg, this]
    · obtain ⟨b, hb, hdiff⟩ := exists_fmod_fmod_ne ha (show 1 < c by omega)
      exact hdiff (heq b hb)
  · rintro (rfl | rfl | hc) b
    · intro hb hc
      exact ⟨hc, hb, by simp⟩
    · simp
    · intro hb hc0
      refine ⟨hc0, hb, ?_⟩
      rw [fmod_of_isUnit _ hc, fmod_of_isUnit _ hc, zero_fmod]

theorem remaindersLeft_swap_b_iff (b : Int) :
    (∀ a c, Within (remaindersLeft? a b c) (remaindersLeft? a c b)) ↔ b = 0 ∨ b = 1 ∨ b = -1 := by
  have hcomm (a c : Int) : Within (remaindersLeft? a b c) (remaindersLeft? a c b) ↔
      Within (remaindersLeft? a c b) (remaindersLeft? a b c) := by
    simp only [within_remaindersLeft_iff]
    tauto
  simp only [hcomm, remaindersLeft_swap_ac_iff]
  exact ⟨fun h => (h 1).resolve_left one_ne_zero, fun hb _ => .inr hb⟩

theorem remainder_smaller_iff (b c : Int) :
    (∀ a, Within (remaindersLeft? a b c) (remainder? a (if c < b then c else b))) ↔
      b = 0 ∨ c = 0 ∨ if c < b then c ∣ b else 0 < b ∨ b = -1 ∨ b = c := by
  simp only [within_remaindersLeft_remainder_iff]
  constructor
  · intro h
    by_cases hb : b = 0
    · exact .inl hb
    by_cases hc : c = 0
    · exact .inr (.inl hc)
    have heq (a : Int) := (h a hb hc).2
    right; right
    split_ifs at heq ⊢ with hlt
    · have := heq b
      rw [fmod_self] at this
      exact dvd_of_fmod_eq_zero this
    · by_contra hne
      rcases lt_or_gt_of_ne hc with _ | hpos
      · have := heq c
        rw [fmod_of_between (m := c) (by omega), fmod_self] at this
        exact hc this
      · have := heq (-1)
        rw [fmod_of_between (m := -1) (by omega), fmod_of_across (by omega)] at this
        omega
  · rintro (rfl | rfl | h) a
    · simp
    · simp
    · intro hb hc
      split_ifs at h ⊢ with hlt
      · exact ⟨hc, (fmod_fmod_of_dvd a h).symm⟩
      · refine ⟨hb, ?_⟩
        rcases h with hpos | rfl | rfl
        · have := fmod_range a hb
          rw [fmod_of_between (m := a.fmod b) (by omega)]
        · rw [fmod_neg_one, zero_fmod]
        · rw [fmod_fmod]

/-! ## Remainders on the right -/

theorem within_remaindersRight_iff {x y z : Int} :
    Within (remaindersRight? a b c) (remaindersLeft? x y z) ↔ (c ≠ 0 → b.fmod c ≠ 0 →
        y ≠ 0 ∧ z ≠ 0 ∧ (x.fmod y).fmod z = a.fmod (b.fmod c)) := by
  rw [remaindersRight?_eq, remaindersLeft?_eq, within_ite_iff, and_imp, and_assoc]

theorem ne_zero_of_fmod_ne_zero (h : b.fmod c ≠ 0) : b ≠ 0 := by
  rintro rfl
  exact h (zero_fmod c)

theorem remaindersRight_ab_iff (a b : Int) :
    (∀ c, Within (remaindersRight? a b c) (remaindersLeft? a b c)) ↔ a = 0 ∨ b = 0 := by
  simp only [within_remaindersRight_iff]
  constructor
  · intro h
    by_contra hne
    obtain ⟨ha, hb⟩ := not_or.mp hne
    have heq (c : Int) (hc : c ≠ 0) (hbc : b.fmod c ≠ 0) := (h c hc hbc).2.2
    -- A unit on the right leaves no remainder, so `b` divides `a`.
    have hdvd : a.fmod b = 0 := by
      obtain ⟨c, hc, hunit, _⟩ := exists_fmod_isUnit hb
      have hzero := heq c hc (by omega)
      rw [fmod_of_isUnit a hunit] at hzero
      by_contra hrem
      have hrange := fmod_range a hb
      rw [fmod_of_across (by omega)] at hzero
      omega
    -- A number beyond `a` on the right leaves one.
    have hlarge : ∃ c, c ≠ 0 ∧ a.natAbs < (b.fmod c).natAbs := by
      obtain ⟨s, _⟩ := exists_signed (a.natAbs + 1) hb
      refine ⟨-b - s, by omega, ?_⟩
      rw [fmod_of_across (by omega)]
      omega
    obtain ⟨c, hc, hlt⟩ := hlarge
    have hzero := heq c hc (by omega)
    rw [hdvd] at hzero
    exact ha (eq_zero_of_dvd_of_natAbs_lt_natAbs (dvd_of_fmod_eq_zero hzero.symm) hlt)
  · rintro (rfl | rfl) c
    · intro hc hbc
      exact ⟨ne_zero_of_fmod_ne_zero hbc, hc, by simp⟩
    · simp

theorem remaindersRight_a_iff (a : Int) :
    (∀ b c, Within (remaindersRight? a b c) (remaindersLeft? a b c)) ↔ a = 0 := by
  simp only [remaindersRight_ab_iff]
  exact ⟨fun h => (h 1).resolve_right one_ne_zero, fun ha _ => .inl ha⟩

theorem forall_fmod_fmod_eq_iff_of_pos (hc : 0 < c) (hbc : b.fmod c ≠ 0) :
    (∀ a : Int, (a.fmod b).fmod c = a.fmod (b.fmod c)) ↔ 0 < b ∧ b < c ∨ c = 2 ∧ b = -1 := by
  have hb : b ≠ 0 := ne_zero_of_fmod_ne_zero hbc
  have hrange := fmod_range b hc.ne'
  constructor
  · intro h
    rcases lt_or_gt_of_ne hb with hlt | _
    · rcases eq_or_ne b (-1) with rfl | _
      · have hone := h 1
        have hinner : (-1 : Int).fmod c = -1 + c := fmod_of_across (by omega)
        rw [hinner] at hone hbc
        have hunit : IsUnit (-1 + c) := isUnit_of_dvd_one (dvd_of_fmod_eq_zero hone.symm)
        have := isUnit_iff.1 hunit
        omega
      · have hone := h (-1)
        rw [fmod_of_between (m := -1) (n := b) (by omega),
          fmod_of_across (m := -1) (n := c) (by omega),
          fmod_of_across (m := -1) (by omega)] at hone
        omega
    · by_contra hne
      have hself := h (b.fmod c)
      rw [fmod_self, fmod_of_between (m := b.fmod c) (n := b) (by omega), fmod_fmod] at hself
      exact hbc hself
  · rintro (⟨_, hlt⟩ | ⟨rfl, rfl⟩) a
    · have := fmod_range a hb
      rw [fmod_of_between (m := b) (by omega), fmod_of_between (m := a.fmod b) (by omega)]
    · rw [fmod_neg_one, show fmod (-1) 2 = 1 from rfl, fmod_one, zero_fmod]

theorem forall_fmod_fmod_eq_neg_iff :
    (∀ a : Int, (a.fmod (-b)).fmod (-c) = a.fmod ((-b).fmod (-c))) ↔
      ∀ a : Int, (a.fmod b).fmod c = a.fmod (b.fmod c) := by
  have hneg (a : Int) : ((-a).fmod (-b)).fmod (-c) = (-a).fmod ((-b).fmod (-c)) ↔
        (a.fmod b).fmod c = a.fmod (b.fmod c) := by
    simp only [Int.neg_fmod_neg, neg_inj]
  refine ⟨fun h a => (hneg a).1 (h (-a)), fun h a => ?_⟩
  have := (hneg (-a)).2 (h (-a))
  rwa [neg_neg] at this

theorem remaindersRight_bc_iff (b c : Int) :
    (∀ a, Within (remaindersRight? a b c) (remaindersLeft? a b c)) ↔
      c = 0 ∨ b.fmod c = 0 ∨ 0 < b ∧ b < c ∨ c < b ∧ b < 0 ∨ c = 2 ∧ b = -1 ∨ c = -2 ∧ b = 1 := by
  by_cases hzero : c = 0 ∨ b.fmod c = 0
  · have hwithin (a : Int) : Within (remaindersRight? a b c) (remaindersLeft? a b c) :=
      within_remaindersRight_iff.2 fun hc hbc => absurd hzero (not_or.2 ⟨hc, hbc⟩)
    simp only [hwithin, implies_true, true_iff]
    tauto
  obtain ⟨hc, hbc⟩ := not_or.mp hzero
  have hb : b ≠ 0 := ne_zero_of_fmod_ne_zero hbc
  simp only [within_remaindersRight_iff, hc, hbc, hb, ne_eq, not_false_eq_true, forall_const,
    true_and, false_or]
  rcases lt_or_gt_of_ne hc with _ | hgt
  · rw [← forall_fmod_fmod_eq_neg_iff, forall_fmod_fmod_eq_iff_of_pos (by omega)
      (by rwa [Int.neg_fmod_neg, neg_ne_zero])]
    omega
  · rw [forall_fmod_fmod_eq_iff_of_pos hgt hbc]
    omega

theorem remaindersRight_c_iff (c : Int) :
    (∀ a b, Within (remaindersRight? a b c) (remaindersLeft? a b c)) ↔ c = 0 ∨ c = 1 ∨ c = -1 := by
  rw [forall_comm]
  simp only [remaindersRight_bc_iff]
  constructor
  · intro h
    by_contra hne
    have hc : c ≠ 0 := fun h => hne (.inl h)
    obtain ⟨s, _⟩ := exists_signed 1 hc
    have hinner : (s + c).fmod c = s := (fdiv_fmod_eq (q := 1) (by ring) (by omega)).2
    have := h (s + c)
    omega
  · rintro (hc | hc) b
    · exact .inl hc
    · exact .inr (.inl (fmod_of_isUnit b hc))

theorem remaindersRight_swap_b_iff (b : Int) :
    (∀ a c, Within (remaindersRight? a b c) (remaindersLeft? a c b)) ↔ b = 0 := by
  simp only [within_remaindersRight_iff]
  constructor
  · intro h
    by_contra hb
    have hinner : b.fmod (-3 * b) = -2 * b := by
      rw [fmod_of_across (by omega)]
      ring
    obtain ⟨s, _⟩ := exists_signed (-1) hb
    have heq := (h s (-3 * b) (by omega) (by omega)).2.2
    rw [hinner] at heq
    -- The one remainder has the sign of `b`, the other one the opposite sign.
    have hrange := fmod_range (s.fmod (-3 * b)) hb
    rw [fmod_of_between (m := s) (n := -2 * b) (by omega)] at heq
    omega
  · rintro rfl a c
    simp

/-- The remainders by `c` and the divisors up to `c` are the same numbers. -/
theorem remaindersRight_swap_ac_iff (a c : Int) :
    (∀ b, Within (remaindersRight? a b c) (remaindersLeft? a c b)) ↔
      ∀ r : Int, 1 ≤ r → r ≤ c.natAbs → r ∣ a := by
  simp only [within_remaindersRight_iff]
  constructor
  · intro h r hr hle
    have hc : c ≠ 0 := by omega
    have heq (b : Int) (hbc : b.fmod c ≠ 0) := (h b hc hbc).2.2
    have hrange := fmod_range a hc
    -- Every smaller divisor leaves the same remainder as `c`, and so does one.
    have hsame (s : Int) (hs : 1 ≤ s) (hlt : s < c.natAbs) : a.fmod c = 0 ↔ s ∣ a := by
      obtain ⟨t, ht⟩ := exists_signed s hc
      have hinner : (t + c).fmod c = t := (fdiv_fmod_eq (q := 1) (by ring) (by omega)).2
      have := heq (t + c) (by omega)
      rw [hinner, fmod_of_between (m := a.fmod c) (by omega)] at this
      rw [this, ← Int.dvd_iff_fmod_eq_zero]
      rcases ht with ⟨rfl, _⟩ | ⟨rfl, _⟩ <;> simp
    rcases eq_or_ne (c.natAbs : Int) 1 with hone | hone
    · obtain rfl : r = 1 := by omega
      exact one_dvd a
    · have hzero : a.fmod c = 0 := (hsame 1 le_rfl (by omega)).2 (one_dvd a)
      rcases lt_or_eq_of_le hle with hlt | rfl
      · exact (hsame r hr hlt).1 hzero
      · exact natAbs_dvd.2 (Int.dvd_of_fmod_eq_zero hzero)
  · intro h b hc hbc
    refine ⟨hc, ne_zero_of_fmod_ne_zero hbc, ?_⟩
    have hrange := fmod_range b hc
    have hca : c ∣ a := natAbs_dvd.1 (h c.natAbs (by omega) le_rfl)
    have hba : b.fmod c ∣ a := natAbs_dvd.1 (h (b.fmod c).natAbs (by omega) (by omega))
    rw [fmod_eq_zero_of_dvd hca, fmod_eq_zero_of_dvd hba, zero_fmod]

end Practicum.Flat.Folding
