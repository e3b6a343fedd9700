import Mathlib.Data.Nat.Bitwise
import Practicum.Net.Traffic.Differing
import Practicum.Net.Traffic.Widening

/-!
# Common networks

The common network of two addresses is the smallest one that holds both. Widening and the highest
differing bit are two ways to find it. Of two networks only the lowest addresses are looked at, so
what is found holds both networks if they have no address in common.
-/

namespace Practicum.Net

variable {k : Nat}

namespace Traffic.Differing

theorem bitLength_le_iff {n : Nat} : bitLength n ≤ k ↔ n < 2 ^ k := by
  unfold bitLength
  split
  next h => simp [h, Nat.two_pow_pos]
  next h => rw [Nat.add_one_le_iff, Nat.log2_lt h]

end Traffic.Differing

namespace Network

open Traffic.Differing Nat

def Within (n m : Network) : Prop :=
  ∀ a, n.contains a = true → m.contains a = true

def Apart (n m : Network) : Prop :=
  ∀ a, n.contains a = true → m.contains a = false

def common (a b : Address) : Network :=
  around a (a.family.bits - bitLength (a.value ^^^ b.value)) (sub_le _ _)

variable {n m : Network} {a b : Address}

theorem Within.trans {k : Network} (h : n.Within m) (h' : m.Within k) : n.Within k :=
  fun a ha => h' a (h a ha)

theorem contains_iff :
    n.contains a = true ↔ n.family = a.family ∧ a.value / 2 ^ n.hostBits = n.lead := by
  simp [contains]

theorem contains_first (n : Network) : n.contains n.first = true := by
  simp [contains_iff, first]

theorem around_within {h : k ≤ a.family.bits} (hm : m.contains a = true) (hk : m.length ≤ k) :
    (around a k h).Within m := by
  intro b hb
  obtain ⟨hfamily, hlead⟩ := contains_iff.mp hm
  obtain ⟨hfamily', hlead'⟩ := contains_iff.mp hb
  simp only [around, hostBits] at hfamily' hlead'
  refine contains_iff.mpr ⟨hfamily.trans hfamily', ?_⟩
  have hsplit : 2 ^ m.hostBits = 2 ^ (a.family.bits - k) * 2 ^ (k - m.length) := by
    rw [← Nat.pow_add, hostBits, hfamily]
    congr 1
    omega
  rw [← hlead, hsplit, ← Nat.div_div_eq_div_mul, hlead', Nat.pow_eq, Nat.div_div_eq_div_mul]

theorem within_around_first (n : Network) : n.Within (around n.first n.length n.length_le) := by
  intro a ha
  obtain ⟨hfamily, hlead⟩ := contains_iff.mp ha
  have hfirst := (contains_iff.mp n.contains_first).2
  refine contains_iff.mpr ⟨hfamily, ?_⟩
  exact hlead.trans hfirst.symm

theorem contains_around_iff {h : k ≤ a.family.bits} (hfamily : a.family = b.family) :
    (around a k h).contains b = true ↔ bitLength (a.value ^^^ b.value) ≤ a.family.bits - k := by
  rw [contains_iff, bitLength_le_iff]
  simp only [around, hostBits, hfamily, true_and, pow_eq]
  rw [← shiftRight_eq_div_pow, ← shiftRight_eq_div_pow, eq_comm, ← xor_eq_zero_iff, ←
    shiftRight_xor_distrib, shiftRight_eq_div_pow]
  simp

theorem bitLength_xor_le (hfamily : a.family = b.family) :
    bitLength (a.value ^^^ b.value) ≤ a.family.bits :=
  bitLength_le_iff.mpr (xor_lt_two_pow a.value_lt (hfamily ▸ b.value_lt))

theorem contains_common_right (hfamily : a.family = b.family) : (common a b).contains b = true := by
  rw [common, contains_around_iff hfamily, Nat.sub_sub_self (bitLength_xor_le hfamily)]

theorem common_comm (ha : a.family = .v4) (hb : b.family = .v4) : common a b = common b a := by
  have hfamily : a.family = b.family := ha.trans hb.symm
  have hlead := (contains_iff.mp (contains_common_right hfamily)).2
  have hzones := (zoneAround_v4 a · ha)
  have hzones' := (zoneAround_v4 b · hb)
  simp only [common, around, hostBits, hfamily] at hlead
  simp only [common, around, hfamily, Nat.xor_comm b.value, hzones, hzones', Nat.pow_eq, hlead]

/-- The common network of two addresses lies in every network that holds both. -/
theorem common_within (ha : m.contains a = true) (hb : m.contains b = true) :
    (common a b).Within m := by
  refine around_within ha ?_
  have hfamily := (contains_iff.mp ha).1
  have hwide : (around a m.length (hfamily ▸ m.length_le)).contains b = true := by
    obtain ⟨-, hlead⟩ := contains_iff.mp ha
    obtain ⟨hfamily', hlead'⟩ := contains_iff.mp hb
    refine contains_iff.mpr ⟨hfamily.symm.trans hfamily', ?_⟩
    simp only [around, hostBits, ← hfamily] at hlead hlead' ⊢
    exact hlead'.trans hlead.symm
  have hbits := (contains_around_iff (hfamily.symm.trans (contains_iff.mp hb).1)).mp hwide
  have hlength := m.length_le
  rw [hfamily] at hlength
  omega

/-- A network that has no address in common with another lies in the common network of the two
lowest addresses. -/
theorem Apart.within_common (h : n.Apart m) (hfamily : n.family = m.family) :
    n.Within (common n.first m.first) := by
  have hmem : (common n.first m.first).contains m.first = true := contains_common_right hfamily
  rcases lt_or_ge n.length (common n.first m.first).length with hlt | hge
  · -- a common network that is narrower lies in the first one, which then holds the other address
    have hin : n.contains m.first = true := around_within n.contains_first hlt.le _ hmem
    have hapart := m.contains_first
    simp [h _ hin] at hapart
  · exact n.within_around_first.trans (around_within (contains_around ..) hge)

theorem Apart.symm (h : n.Apart m) : m.Apart n := by
  intro a ha
  by_contra hn
  rw [h a (Bool.not_eq_false _ ▸ hn)] at ha
  cases ha

/-! ## The two searches -/

theorem widen_around {h : k + 1 ≤ a.family.bits} (ha : a.family = .v4) :
    (around a (k + 1) h).widen = around a k (Nat.le_of_succ_le h) := by
  have hbits : a.family.bits - k = a.family.bits - (k + 1) + 1 := by omega
  simp only [widen, around, Nat.succ_ne_zero, dite_false, Nat.add_sub_cancel, zoneAround_v4 a k ha,
    hbits, Nat.pow_eq, Nat.pow_succ, Nat.div_div_eq_div_mul]

end Network

namespace Traffic

open Network

variable {a b : Address} {x y : Source}

/-- Widening around an address stops at the common network, unless it starts above. -/
theorem Widening.widenTo_around {h : k ≤ a.family.bits} (ha : a.family = .v4) (hb : b.family = .v4)
    (hk : (common a b).length ≤ k) : widenTo b (around a k h) = common a b := by
  have hfamily : a.family = b.family := ha.trans hb.symm
  have hreached : ∀ {k} {h : k ≤ a.family.bits}, (common a b).length = k →
      widenTo b (around a k h) = common a b := by
    rintro k h rfl
    rw [widenTo, if_pos]
    · rfl
    · rw [Bool.or_eq_true]
      exact .inl (contains_common_right hfamily)
  induction k with
  | zero => exact hreached (Nat.le_zero.mp hk)
  | succ k ih =>
    rcases Nat.eq_or_lt_of_le hk with heq | hlt
    · exact hreached heq
    rw [widenTo, if_neg, widen_around ha, ih (Nat.le_of_lt_succ hlt)]
    rw [Bool.or_eq_true, contains_around_iff hfamily]
    simp only [common, around] at hlt ⊢
    simp
    omega

theorem Widening.supernet_eq (hx : x.asNetwork.family = .v4) (hy : y.asNetwork.family = .v4) :
    supernet x y = .ok (common x.asNetwork.first y.asNetwork.first) := by
  have hx' : x.asNetwork.first.family = .v4 := hx
  have hy' : y.asNetwork.first.family = .v4 := hy
  rw [supernet, if_neg (by simp [hx', hy']), if_neg (by simp [hx'])]
  exact congrArg Except.ok (widenTo_around hx' hy' (common ..).length_le)

theorem Differing.supernet_eq (hx : x.asNetwork.family = .v4) (hy : y.asNetwork.family = .v4) :
    supernet x y = .ok (common x.asNetwork.first y.asNetwork.first) := by
  have hx' : x.asNetwork.first.family = .v4 := hx
  have hy' : y.asNetwork.first.family = .v4 := hy
  have hle := bitLength_xor_le (hx'.trans hy'.symm)
  simp only [hx', Family.bits] at hle
  simp only [supernet, hle, hx', Family.bits, Nat.sub_le, dite_true, if_true, common]

/-- Both searches find the smallest network that holds the lowest addresses of two sources,
whichever source comes first. -/
theorem supernet_smallest (hx : x.asNetwork.family = .v4) (hy : y.asNetwork.family = .v4) :
    ∃ n, Widening.supernet x y = .ok n ∧ Widening.supernet y x = .ok n ∧
      Differing.supernet x y = .ok n ∧ n.contains x.asNetwork.first = true ∧
      n.contains y.asNetwork.first = true ∧
      ∀ m : Network, m.contains x.asNetwork.first = true → m.contains y.asNetwork.first = true →
        n.Within m := by
  have hcomm := common_comm (a := y.asNetwork.first) (b := x.asNetwork.first) hy hx
  exact ⟨common x.asNetwork.first y.asNetwork.first, Widening.supernet_eq hx hy,
    hcomm ▸ Widening.supernet_eq hy hx, Differing.supernet_eq hx hy, contains_around ..,
    contains_common_right (hx.trans hy.symm), fun _ => common_within⟩

theorem supernet_smallest_pair :
    let x := Source.network (around (Address.ofNat .v4 8) 30 (by decide))
    let y := Source.address (Address.ofNat .v4 13)
    x.asNetwork.family = .v4 ∧ y.asNetwork.family = .v4 ∧
      ∃ n, Widening.supernet x y = .ok n ∧ n.contains y.asNetwork.first = true :=
  ⟨rfl, rfl, (supernet_smallest rfl rfl).imp fun _ h => ⟨h.1, h.2.2.2.2.1⟩⟩

end Traffic

end Practicum.Net
