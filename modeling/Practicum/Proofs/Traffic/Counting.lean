import Mathlib.Algebra.BigOperators.Group.List.Basic
import Mathlib.Data.List.Induction
import Mathlib.Data.List.Sort
import Mathlib.Tactic.Ring
import Practicum.Net.Traffic.Tree

/-!
# Counting packets

A tree that was built of packets is a search tree: its addresses rise from the left to the right,
they are the addresses of the packets, and each node counts the bytes of the packets with its
address.
-/

namespace Practicum.Net.Traffic

open List

/-- An IPv4 packet as the trees count it. -/
structure Packet where
  source : Address
  bytes : Int
  source_v4 : source.family = .v4

def bytesFrom (packets : List Packet) (a : Address) : Int :=
  ((packets.filter fun p => p.source = a).map Packet.bytes).sum

namespace Tree

variable {t left right : Tree} {source : Source} {a : Address} {bytes : Int}
  {addresses : List Address} {count count' : Address → Int} {packets : List Packet}

/-- From the left to the right, a tree has rising addresses with their counts. -/
structure Lists (count : Address → Int) (addresses : List Address) (t : Tree) : Prop where
  entries : t.toList = addresses.map fun a => (.address a, count a)
  rising : addresses.Pairwise fun a b => a.value < b.value
  v4 : ∀ a ∈ addresses, a.family = .v4

theorem Lists.congr (h : t.Lists count addresses) (hcount : ∀ a ∈ addresses, count' a = count a) :
    t.Lists count' addresses :=
  { h with entries := h.entries.trans (map_congr_left fun a ha => by rw [hcount a ha]) }

theorem lists_node : (node left source bytes right).Lists count addresses ↔
    ∃ low a high, addresses = low ++ a :: high ∧ source = .address a ∧ bytes = count a ∧
      left.Lists count low ∧ a.family = .v4 ∧ right.Lists count high ∧
      (∀ b ∈ low, b.value < a.value) ∧ ∀ b ∈ high, a.value < b.value := by
  constructor
  · rintro ⟨hentries, hrising, hv4⟩
    obtain ⟨low, _, rfl, hleft, hrest⟩ := map_eq_append_iff.mp hentries.symm
    obtain ⟨a, high, rfl, ha, hright⟩ := map_eq_cons_iff.mp hrest
    obtain ⟨rfl, rfl⟩ := Prod.mk.inj ha
    obtain ⟨hlow, hhigh, hacross⟩ := pairwise_append.mp hrising
    obtain ⟨habove, hhigh⟩ := pairwise_cons.mp hhigh
    obtain ⟨hv4low, hv4high⟩ := forall_mem_append.mp hv4
    obtain ⟨ha, hv4high⟩ := forall_mem_cons.mp hv4high
    exact ⟨low, a, high, rfl, rfl, rfl, ⟨hleft.symm, hlow, hv4low⟩, ha,
      ⟨hright.symm, hhigh, hv4high⟩, fun b hb => hacross b hb a mem_cons_self, habove⟩
  · rintro ⟨low, a, high, rfl, rfl, rfl, hleft, ha, hright, hlow, hhigh⟩
    refine ⟨by simp [toList, hleft.entries, hright.entries], ?_,
      forall_mem_append.mpr ⟨hleft.v4, forall_mem_cons.mpr ⟨ha, hright.v4⟩⟩⟩
    refine pairwise_append.mpr ⟨hleft.rising, pairwise_cons.mpr ⟨hhigh, hright.rising⟩, ?_⟩
    exact fun b hb => forall_mem_cons.mpr ⟨hlow b hb, fun c hc => (hlow b hb).trans (hhigh c hc)⟩

variable (bytes) in
/-- A packet is counted at the node of its address, which is made if there is none. -/
theorem Lists.add (ht : t.Lists count addresses) (ha : a.family = .v4)
    (hnew : a ∉ addresses → count a = 0) :
    ∃ t' addresses', t.add a bytes = .ok t' ∧ t'.total = t.total + bytes ∧
      t'.Lists (fun b => count b + if b = a then bytes else 0) addresses' ∧
      ∀ b, b ∈ addresses' ↔ b = a ∨ b ∈ addresses := by
  induction t generalizing addresses with
  | empty =>
    obtain rfl : addresses = [] := map_eq_nil_iff.mp ht.entries.symm
    refine ⟨leaf (.address a) bytes, [a], rfl, by simp [leaf, total], ⟨?_, by simp, by simp [ha]⟩,
      by simp⟩
    simp [leaf, toList, hnew]
  | node l _ _ r ihl ihr =>
    obtain ⟨low, b, high, rfl, rfl, rfl, hl, hb, hr, hlow, hhigh⟩ := lists_node.mp ht
    have hcompare : compare a (.address b) = .ok (Ord.compare a.value b.value) := by
      simp [compare, ha, hb, a.zone_v4 ha, b.zone_v4 hb]
    simp only [Tree.add, hcompare]
    cases hord : Ord.compare a.value b.value with
    | lt =>
      have hlt := Nat.compare_eq_lt.mp hord
      obtain ⟨l', low', hl', htotal, hlists, hmem⟩ := ihl hl (by grind)
      rw [hl']
      exact ⟨_, low' ++ b :: high, rfl, by simp only [total, htotal]; ring,
        lists_node.mpr ⟨low', b, high, rfl, rfl, by grind, hlists, hb, hr.congr (by grind),
          by grind, hhigh⟩, by grind⟩
    | gt =>
      have hlt := Nat.compare_eq_gt.mp hord
      obtain ⟨r', high', hr', htotal, hlists, hmem⟩ := ihr hr (by grind)
      rw [hr']
      exact ⟨_, low ++ b :: high', rfl, by simp only [total, htotal]; ring,
        lists_node.mpr ⟨low, b, high', rfl, rfl, by grind, hl.congr (by grind), hb, hlists, hlow,
          by grind⟩, by grind⟩
    | eq =>
      obtain rfl : a = b := by
        have hvalue := Nat.compare_eq_eq.mp hord
        have hzone := (a.zone_v4 ha).trans (b.zone_v4 hb).symm
        have hfamily := ha.trans hb.symm
        cases a
        cases b
        simp_all
      exact ⟨_, low ++ a :: high, rfl, by simp only [total]; ring,
        lists_node.mpr ⟨low, a, high, rfl, rfl, by simp, hl.congr (by grind), hb,
          hr.congr (by grind), hlow, hhigh⟩, by simp⟩

def ofPackets (packets : List Packet) : Except TrafficError Tree :=
  packets.foldlM (fun t p => t.add p.source p.bytes) empty

theorem exists_ofPackets (packets : List Packet) :
    ∃ t addresses, ofPackets packets = .ok t ∧ t.total = (packets.map Packet.bytes).sum ∧
      t.Lists (bytesFrom packets) addresses ∧ ∀ a, a ∈ addresses ↔ ∃ p ∈ packets, p.source = a := by
  induction packets using List.reverseRecOn with
  | nil => exact ⟨empty, [], rfl, rfl, ⟨rfl, .nil, nofun⟩, by simp⟩
  | append_singleton packets p ih =>
    obtain ⟨t, addresses, ht, htotal, hlists, hmem⟩ := ih
    have hnew : p.source ∉ addresses → bytesFrom packets p.source = 0 := by
      intro hn
      have hnone : (packets.filter fun q => q.source = p.source) = [] := by
        simpa [filter_eq_nil_iff, hmem] using hn
      rw [bytesFrom, hnone]
      rfl
    obtain ⟨t', addresses', ht', htotal', hlists', hmem'⟩ := hlists.add p.bytes p.source_v4 hnew
    refine ⟨t', addresses', ?_, by simp [htotal', htotal], hlists'.congr fun a _ => ?_, fun a => ?_⟩
    · rw [ofPackets, foldlM_append]
      exact (congrArg (· >>= _) ht).trans ((bind_pure _).trans ht')
    · by_cases ha : p.source = a
      · simp [bytesFrom, filter_append, ha]
      · simp [bytesFrom, filter_append, ha, Ne.symm ha]
    · simp [hmem', hmem, or_and_right, exists_or, or_comm, eq_comm]

end Tree

/-- A tree of packets is a search tree with exact counts: from the left to the right it has the
addresses of the packets, rising, each with the bytes of its packets; and the order of the packets
makes no difference to that. -/
theorem packets_counted (packets : List Packet) :
    ∃ t, ∃ addresses : List Address, Tree.ofPackets packets = .ok t ∧
      t.toList = addresses.map (fun a => (.address a, bytesFrom packets a)) ∧
      (addresses.Pairwise fun a b => a.value < b.value) ∧
      (∀ a, a ∈ addresses ↔ ∃ p ∈ packets, p.source = a) ∧
      ∀ packets', packets'.Perm packets →
        ∃ t', Tree.ofPackets packets' = .ok t' ∧ t'.toList = t.toList := by
  obtain ⟨t, addresses, ht, -, hlists, hmem⟩ := Tree.exists_ofPackets packets
  refine ⟨t, addresses, ht, hlists.entries, hlists.rising, hmem, fun packets' hperm => ?_⟩
  obtain ⟨t', addresses', ht', -, hlists', hmem'⟩ := Tree.exists_ofPackets packets'
  have hbytes : bytesFrom packets' = bytesFrom packets := funext fun a =>
    ((hperm.filter _).map _).sum_eq
  have : Std.Irrefl fun a b : Address => a.value < b.value := ⟨fun a => lt_irrefl a.value⟩
  have : Std.Antisymm fun a b : Address => a.value < b.value := ⟨fun a b h h' => absurd h' h.asymm⟩
  obtain rfl : addresses' = addresses := hlists'.rising.eq_of_mem_iff hlists.rising fun a => by
    simp only [hmem, hmem', hperm.mem_iff]
  exact ⟨t', ht', by rw [hlists'.entries, hlists.entries, hbytes]⟩

end Practicum.Net.Traffic
