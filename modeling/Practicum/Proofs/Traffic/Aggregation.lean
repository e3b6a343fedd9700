import Mathlib.Algebra.Order.BigOperators.Group.List
import Practicum.Proofs.Traffic.CommonNetworks
import Practicum.Proofs.Traffic.Counting

/-!
# Aggregation of traffic

Both aggregations of a tree of IPv4 sources end with the same tree, in which no byte is lost: a node
that gives its bytes away gives them to the node above. The report of that tree has one entry for
each network, so it loses the bytes of a node whose network comes again.
-/

namespace Practicum.Net.Traffic

open Network List Widening Table Tree

variable {θ : Rat} {t left right : Tree} {source : Source} {bytes : Int} {P : Source × Int → Prop}
  {packets : List Packet}

namespace Tree

def All (P : Source × Int → Prop) (t : Tree) : Prop :=
  ∀ e ∈ t.toList, P e

@[simp]
theorem All.empty : empty.All P := by
  simp [All, toList]

@[simp]
theorem all_node :
    (node left source bytes right).All P ↔ left.All P ∧ P (source, bytes) ∧ right.All P := by
  simp [All, toList, or_imp, forall_and]

theorem All.mono {Q : Source × Int → Prop} (h : t.All P) (hPQ : ∀ e, P e → Q e) : t.All Q :=
  fun e he => hPQ e (h e he)

theorem All.hollow (h : t.All P) (hzero : ∀ s b, P (s, b) → P (s, 0)) : t.hollow.All P := by
  unfold Tree.hollow
  split <;> simp_all
  exact hzero _ _ h.2.1

theorem total_hollow (left : Tree) (source : Source) (bytes : Int) (right : Tree) :
    (node left source bytes right).hollow.total = left.total + right.total := by
  unfold hollow
  split <;> simp_all [total]

abbrev V4 (t : Tree) : Prop :=
  t.All fun e => e.1.asNetwork.family = .v4

abbrev Nonneg (t : Tree) : Prop :=
  t.All fun e => 0 ≤ e.2

theorem V4.hollow (h : t.V4) : t.hollow.V4 :=
  All.hollow h fun _ _ h => h

theorem Lists.all {addresses : List Address} {count : Address → Int}
    (h : t.Lists count addresses) (hP : ∀ a ∈ addresses, P (.address a, count a)) : t.All P := by
  simpa [All, h.entries] using hP

end Tree

structure Outcome where
  built : Tree
  aggregated : Tree
  report : Table Network Int
  deriving DecidableEq

/-- The analysis of the packets of a capture by one of the aggregations. -/
def outcome (aggregate : Rat → Tree → Tree × Option TrafficError) (threshold : Rat)
    (packets : List Packet) : Except TrafficError Outcome := do
  let built ← ofPackets packets
  match aggregate threshold built with
  | (aggregated, none) => return { built, aggregated, report := aggregated.report }
  | (_, some e) => throw e

/-! ## One node -/

section
variable (θ bytes) (ht : t.V4) (hs : source.asNetwork.family = .v4)
include ht hs

/-- A node leaves its neighbour alone or takes over all that the neighbour counts. -/
theorem Widening.absorb_cases : Differing.isSmall θ t = false ∧
        absorb θ t source bytes = { neighbour := t, source, bytes } ∨
      ∃ l near count r, t = .node l near count r ∧ Differing.isSmall θ t = true ∧
        absorb θ t source bytes =
          { neighbour := t.hollow
            source := .network (common near.asNetwork.first source.asNetwork.first)
            bytes := count + bytes } := by
  cases t with
  | empty => exact .inl ⟨rfl, rfl⟩
  | node l near count r =>
    by_cases hsmall : (count : Rat) < θ
    · refine .inr ⟨l, near, count, r, rfl, by simp [Differing.isSmall, hsmall], ?_⟩
      simp [absorb, hsmall, supernet_eq (all_node.mp ht).2.1 hs]
    · exact .inl ⟨by simp [Differing.isSmall, hsmall], by simp [absorb, hsmall]⟩

theorem Widening.absorb_v4 : (absorb θ t source bytes).neighbour.V4 ∧
      (absorb θ t source bytes).source.asNetwork.family = .v4 ∧
      (absorb θ t source bytes).error = none := by
  obtain ⟨-, h⟩ | ⟨l, _, _, r, rfl, -, h⟩ := absorb_cases θ bytes ht hs
  · simp [h, ht, hs]
  · rw [h]
    exact ⟨ht.hollow, (all_node.mp ht).2.1, rfl⟩

end

/-- A node other than the root has no small number of bytes, or it gave them away and has a side. -/
def Tree.Settled (θ : Rat) : Tree → Prop
  | empty => True
  | node left _ bytes right =>
    (θ ≤ bytes ∨ bytes = 0 ∧ (left ≠ empty ∨ right ≠ empty)) ∧ left.Settled θ ∧ right.Settled θ

def Tree.SidesSettled (θ : Rat) : Tree → Prop
  | empty => True
  | node left _ _ right => left.Settled θ ∧ right.Settled θ

theorem Tree.SidesSettled.hollow (h : t.SidesSettled θ) : t.hollow.Settled θ := by
  obtain _ | ⟨l, _, _, r⟩ := t
  · trivial
  cases l <;> cases r
  · trivial
  all_goals exact ⟨.inr ⟨rfl, by simp⟩, h⟩

/-- A node that takes over the bytes of its neighbour loses none, and the neighbour is settled
then. -/
theorem Widening.absorb_settled (θ : Rat) (t : Tree) (source : Source) (bytes : Int) :
    (absorb θ t source bytes).neighbour.total + (absorb θ t source bytes).bytes = t.total + bytes ∧
      ((absorb θ t source bytes).error = none → t.SidesSettled θ →
        (absorb θ t source bytes).neighbour.Settled θ) ∧
      (t.Nonneg → 0 ≤ bytes → (absorb θ t source bytes).neighbour.Nonneg ∧
        0 ≤ (absorb θ t source bytes).bytes) := by
  cases t with
  | empty => exact ⟨rfl, fun _ _ => trivial, fun h hb => ⟨h, hb⟩⟩
  | node l near count r =>
    by_cases hsmall : (count : Rat) < θ
    · cases hnet : supernet near source with
      | error e => simp +contextual [absorb, hsmall, hnet]
      | ok n =>
        simp only [absorb, hsmall, hnet, if_true, total_hollow, total]
        exact ⟨by ring, fun _ h => h.hollow, fun h hb => ⟨h.hollow fun _ _ _ => le_rfl,
          add_nonneg (all_node.mp h).2.1 hb⟩⟩
    · simp only [absorb, hsmall, if_false, true_and]
      exact ⟨fun _ h => ⟨.inl (not_lt.mp hsmall), h⟩, fun h hb => ⟨h, hb⟩⟩

/-- Aggregation loses no byte and leaves no small node below the root. -/
theorem Widening.aggregate_settled (θ : Rat) (t : Tree) : (aggregate θ t).1.total = t.total ∧
      ((aggregate θ t).2 = none → (aggregate θ t).1.SidesSettled θ) ∧
      (t.Nonneg → (aggregate θ t).1.Nonneg) := by
  induction t with
  | empty => exact ⟨rfl, fun _ => trivial, id⟩
  | node l s b r ihl ihr =>
    simp only [aggregate, total, ← ihl.1, ← ihr.1, all_node]
    generalize aggregate θ l = l' at *
    generalize aggregate θ r = r' at *
    obtain ⟨-, hsettled, hnonneg⟩ := ihl
    obtain ⟨hr, hsettled', hnonneg'⟩ := ihr
    obtain ⟨left, _ | e⟩ := l'
    · obtain ⟨right, _ | e⟩ := r'
      · obtain ⟨htotal, hleft, hkept⟩ := absorb_settled θ left s b
        obtain ⟨htotal', hright, hkept'⟩ := absorb_settled θ right (absorb θ left s b).source
          (absorb θ left s b).bytes
        cases herror : (absorb θ left s b).error <;> simp only [herror, total, all_node]
        · refine ⟨by omega, fun h => ⟨hleft herror (hsettled rfl), hright h (hsettled' rfl)⟩, ?_⟩
          rintro ⟨hl, hb, hr⟩
          obtain ⟨hl', hb'⟩ := hkept (hnonneg hl) hb
          obtain ⟨hr', hb''⟩ := hkept' (hnonneg' hr) hb'
          exact ⟨hl', hb'', hr'⟩
        · refine ⟨by omega, by rintro ⟨⟩, ?_⟩
          rintro ⟨hl, hb, hr⟩
          obtain ⟨hl', hb'⟩ := hkept (hnonneg hl) hb
          exact ⟨hl', hb', hnonneg' hr⟩
      · exact ⟨rfl, by rintro ⟨⟩, fun h => all_node.mpr ⟨hnonneg h.1, h.2.1, hnonneg' h.2.2⟩⟩
    · exact ⟨by rw [total, hr], by rintro ⟨⟩, fun h => all_node.mpr ⟨hnonneg h.1, h.2⟩⟩

/-- What a node becomes whose two sides were aggregated. -/
def Widening.settle (θ : Rat) (left : Tree) (source : Source) (bytes : Int) (right : Tree) : Tree :=
  let l := absorb θ left source bytes
  let r := absorb θ right l.source l.bytes
  .node l.neighbour r.source r.bytes r.neighbour

section
variable (θ bytes) (hl : left.V4) (hs : source.asNetwork.family = .v4) (hr : right.V4)
include hl hs hr

theorem Widening.settle_v4 : (settle θ left source bytes right).V4 := by
  obtain ⟨hl', hs', -⟩ := absorb_v4 θ bytes hl hs
  obtain ⟨hr', hs'', -⟩ := absorb_v4 θ (absorb θ left source bytes).bytes hr hs'
  exact all_node.mpr ⟨hl', hs'', hr'⟩

variable {θ bytes} {l r : Tree}

theorem Widening.aggregate_node (hleft : aggregate θ l = (left, none))
    (hright : aggregate θ r = (right, none)) :
    aggregate θ (.node l source bytes r) = (settle θ left source bytes right, none) := by
  obtain ⟨-, hs', herror⟩ := absorb_v4 θ bytes hl hs
  obtain ⟨-, -, herror'⟩ := absorb_v4 θ (absorb θ left source bytes).bytes hr hs'
  simp only [aggregate, hleft, hright, herror, herror', settle]

theorem Differing.aggregate_node (hl' : aggregate θ l = (left, none))
    (hr' : aggregate θ r = (right, none)) :
    aggregate θ (.node l source bytes r) = (settle θ left source bytes right, none) := by
  have hsource : (if isSmall θ left then (merge source left).map Source.network else .ok source) =
        .ok (absorb θ left source bytes).source ∧
      (if isSmall θ left then bytes + rootBytes left else bytes) =
        (absorb θ left source bytes).bytes ∧
      (if isSmall θ left then left.hollow else left) = (absorb θ left source bytes).neighbour := by
    obtain ⟨hsmall, h⟩ | ⟨l, near, count, r, rfl, hsmall, h⟩ := absorb_cases θ bytes hl hs
    · simp [h, hsmall]
    have hnear := (all_node.mp hl).2.1
    simp only [h, hsmall, if_true, merge, rootBytes, supernet_eq hs hnear, Except.map, and_true]
    exact ⟨by rw [common_comm hs hnear], Int.add_comm ..⟩
  obtain ⟨hsource, hbytes, hleft⟩ := hsource
  obtain ⟨-, hs', -⟩ := absorb_v4 θ bytes hl hs
  simp only [aggregate, hl', hsource, hbytes, hleft, hr', settle]
  obtain ⟨hsmall, h⟩ | ⟨l, near, count, r, rfl, hsmall, h⟩ :=
    absorb_cases θ (absorb θ left source bytes).bytes hr hs'
  · simp [h, hsmall]
  have hnear := (all_node.mp hr).2.1
  simp only [h, hsmall, if_true, takeRight, merge, rootBytes, supernet_eq hs' hnear]
  rw [common_comm hs' hnear, Int.add_comm]

end

/-- Both aggregations turn a tree of one family into the same tree; what a step of the recursion
keeps holds of the whole. -/
theorem aggregate_induction {motive : Tree → Tree → Prop} (hempty : motive .empty .empty)
    (hnode : ∀ l left source bytes r right, left.V4 → source.asNetwork.family = .v4 → right.V4 →
      aggregate θ l = (left, none) → aggregate θ r = (right, none) →
      motive l left → motive r right →
      motive (.node l source bytes r) (settle θ left source bytes right)) (ht : t.V4) :
    ∃ t', t'.V4 ∧ aggregate θ t = (t', none) ∧ Differing.aggregate θ t = (t', none) ∧
      motive t t' := by
  induction t with
  | empty => exact ⟨.empty, Tree.All.empty, rfl, rfl, hempty⟩
  | node l source bytes r ihl ihr =>
    obtain ⟨hl, hs, hr⟩ := all_node.mp ht
    obtain ⟨left, hl', hwl, hdl, hml⟩ := ihl hl
    obtain ⟨right, hr', hwr, hdr, hmr⟩ := ihr hr
    exact ⟨_, settle_v4 θ bytes hl' hs hr', aggregate_node hl' hs hr' hwl hwr,
      Differing.aggregate_node hl' hs hr' hdl hdr,
      hnode l left source bytes r right hl' hs hr' hwl hwr hml hmr⟩

theorem outcome_eq_ok (h : ofPackets packets = .ok t) {aggregate} {t' : Tree}
    (haggregate : aggregate θ t = (t', none)) :
    outcome aggregate θ packets = .ok ⟨t, t', t'.report⟩ := by
  rw [outcome, h]
  simp only [bind, Except.bind, haggregate]
  rfl

theorem Tree.exists_ofPackets_v4 (packets : List Packet) : ∃ t, ofPackets packets = .ok t ∧
      t.All fun e => ∃ a, e.1 = .address a ∧ a.family = .v4 := by
  obtain ⟨t, _, ht, -, hlists, -⟩ := exists_ofPackets packets
  exact ⟨t, ht, hlists.all fun a ha => ⟨a, rfl, hlists.v4 a ha⟩⟩

theorem Tree.V4.of_addresses (h : t.All fun e => ∃ a, e.1 = .address a ∧ a.family = .v4) :
    t.V4 := by
  refine h.mono ?_
  rintro ⟨_, _⟩ ⟨a, rfl, ha⟩
  exact ha

theorem aggregate_v4 (θ : Rat) (ht : t.V4) :
    ∃ t', t'.V4 ∧ aggregate θ t = (t', none) ∧ Differing.aggregate θ t = (t', none) := by
  obtain ⟨t', hv4, hw, hd, -⟩ := aggregate_induction (θ := θ) (motive := fun _ _ => True) trivial
    (fun _ _ _ _ _ _ _ _ _ _ _ _ _ => trivial) ht
  exact ⟨t', hv4, hw, hd⟩

/-- Aggregation keeps the bytes of any tree, also where it fails. Where it does not, as in a tree of
one family, each node below the root has enough bytes, or none and a side; and both aggregations
agree there. -/
theorem nothing_small_left (θ : Rat) (t : Tree) :
    (aggregate θ t).1.total = t.total ∧
      ((aggregate θ t).2 = none → (aggregate θ t).1.SidesSettled θ) ∧
      (t.V4 → (aggregate θ t).2 = none ∧ Differing.aggregate θ t = aggregate θ t) := by
  obtain ⟨htotal, hsettled, -⟩ := aggregate_settled θ t
  refine ⟨htotal, hsettled, fun ht => ?_⟩
  obtain ⟨t', -, hw, hd⟩ := aggregate_v4 θ ht
  exact ⟨by rw [hw], by rw [hw, hd]⟩

/-- The left node gives its byte away and stays for the sake of its side. -/
theorem nothing_small_left_hollow :
    let node l n b := Tree.node l (.address (Address.ofNat .v4 n)) b .empty
    let t := node (node (node .empty 1 7) 2 1) 3 8
    t.V4 ∧ (aggregate 5 t).1.total = 16 ∧ (aggregate 5 t).1.SidesSettled 5 := by
  intro node t
  have ht : t.V4 := by
    simp [t, node, Source.asNetwork, only, around, Address.ofNat]
  obtain ⟨htotal, hsettled, hv4⟩ := nothing_small_left 5 t
  exact ⟨ht, htotal, hsettled (hv4 ht).1⟩

/-- Both aggregations build the same tree of the packets of a capture, turn it into the same tree and
report the same bytes for the same networks in the same order. -/
theorem outcomes_agree (packets : List Packet) (θ : Rat) :
    ∃ o, outcome Widening.aggregate θ packets = .ok o ∧
      outcome Differing.aggregate θ packets = .ok o := by
  obtain ⟨t, ht, hall⟩ := Tree.exists_ofPackets_v4 packets
  obtain ⟨t', -, hw, hd⟩ := aggregate_v4 θ (Tree.V4.of_addresses hall)
  exact ⟨⟨t, t', t'.report⟩, outcome_eq_ok ht hw, outcome_eq_ok ht hd⟩

/-! ## The bytes of a capture -/

theorem put_of_get?_eq_some {κ α : Type} [DecidableEq κ] {table : Table κ α} {k : κ} {old : α}
    (h : table.get? k = some old) (v : α) : ∃ before behind, table = before ++ (k, old) :: behind ∧
      table.put k v = before ++ (k, v) :: behind := by
  induction table with
  | nil => cases h
  | cons e table ih =>
    obtain ⟨k', v'⟩ := e
    by_cases hk : k' = k
    · subst hk
      obtain rfl : v' = old := by simpa [get?] using h
      exact ⟨[], table, rfl, by simp [put]⟩
    · obtain ⟨before, behind, rfl, hput⟩ := ih (by simpa [get?, hk] using h)
      exact ⟨(k', v') :: before, behind, rfl, by simp [put, hk, hput]⟩

/-- Filling a table loses what stood under a key that comes again. -/
theorem sum_values_foldl_put {κ : Type} [DecidableEq κ] (entries : List (κ × Int))
    (hpos : ∀ e ∈ entries, 0 < e.2) (table : Table κ Int) (hkeys : table.keys.Nodup)
    (hvalues : ∀ e ∈ table, 0 < e.2) : (entries.foldl (fun t e => t.put e.1 e.2) table).values.sum ≤
        table.values.sum + (entries.map Prod.snd).sum ∧
      ((entries.foldl (fun t e => t.put e.1 e.2) table).values.sum =
          table.values.sum + (entries.map Prod.snd).sum ↔
        (table.keys ++ entries.map Prod.fst).Nodup) := by
  induction entries generalizing table with
  | nil => simpa using hkeys
  | cons e entries ih =>
    obtain ⟨k, v⟩ := e
    have hv : 0 < v := hpos (k, v) mem_cons_self
    have hrest := ih (fun e he => hpos e (mem_cons_of_mem _ he)) (table.put k v)
    simp only [foldl_cons, map_cons, sum_cons]
    cases hget : table.get? k with
    | none =>
      have hnew : k ∉ table.keys := get?_eq_none_iff.mp hget
      rw [put_of_get?_eq_none hget v] at hrest ⊢
      simp only [Table.keys, values, map_append, map_cons, map_nil, sum_append, sum_singleton,
        append_assoc, Int.add_assoc] at hrest hkeys hnew ⊢
      refine hrest ?_ ?_
      · exact nodup_append.mpr ⟨hkeys, by simp, by rintro _ hmem _ hlast rfl; simp_all⟩
      · exact forall_mem_append.mpr ⟨hvalues, by simpa using hv⟩
    | some old =>
      obtain ⟨_, _, rfl, hput⟩ := put_of_get?_eq_some hget v
      have hold : 0 < old := hvalues (k, old) (by simp)
      rw [hput] at hrest ⊢
      simp only [Table.keys, values, map_append, map_cons, sum_append,
        sum_cons] at hrest hkeys ⊢
      obtain ⟨hbefore, hbehind⟩ := forall_mem_append.mp hvalues
      obtain ⟨_, -⟩ := hrest hkeys (forall_mem_append.mpr
        ⟨hbefore, forall_mem_cons.mpr ⟨hv, (forall_mem_cons.mp hbehind).2⟩⟩)
      refine ⟨by omega, ⟨fun h => by omega, fun h => ?_⟩⟩
      -- the key that comes again is a repetition among the keys
      rw [nodup_append] at h
      exact absurd rfl (h.2.2 k (by simp) k (by simp))

/-- The networks of the nodes that sent anything, in order. -/
def Tree.networks (t : Tree) : List Network :=
  (t.toList.filter fun e => 0 < e.2).map fun e => e.1.asNetwork

theorem Tree.total_eq_sum (t : Tree) : t.total = (t.toList.map Prod.snd).sum := by
  induction t with
  | empty => rfl
  | node l s b r ihl ihr =>
    simp only [total, toList, map_append, map_cons, sum_append, sum_cons, ihl, ihr]
    ring

theorem Tree.sum_filter_pos {entries : List (Source × Int)} (h : ∀ e ∈ entries, 0 ≤ e.2) :
    ((entries.filter fun e => 0 < e.2).map Prod.snd).sum = (entries.map Prod.snd).sum := by
  induction entries with
  | nil => rfl
  | cons e entries ih =>
    obtain ⟨_, hrest⟩ := forall_mem_cons.mp h
    by_cases hpos : 0 < e.2
    · simpa [hpos] using ih hrest
    · obtain hzero : e.2 = 0 := by omega
      simpa [hzero] using ih hrest

theorem Tree.report_sum (h : t.Nonneg) :
    t.report.values.sum ≤ t.total ∧ (t.report.values.sum = t.total ↔ t.networks.Nodup) := by
  have hfill := sum_values_foldl_put
    ((t.toList.filter fun e => 0 < e.2).map fun e => (e.1.asNetwork, e.2))
    (forall_mem_map.mpr fun e he => of_decide_eq_true (mem_filter.mp he).2)
    [] nodup_nil nofun
  rw [foldl_map, map_map, map_map] at hfill
  have hsent := sum_filter_pos h
  rw [← total_eq_sum] at hsent
  rw [← hsent]
  simp only [Table.keys, values, map_nil, sum_nil, zero_add, nil_append]
    at hfill
  exact hfill

/-- The report of a capture loses bytes exactly if two nodes that sent anything have become the same
network. -/
theorem report_sum_eq_iff (packets : List Packet) (hpos : ∀ p ∈ packets, 0 < p.bytes) (θ : Rat) :
    ∃ o, outcome Widening.aggregate θ packets = .ok o ∧
      o.aggregated.total = (packets.map Packet.bytes).sum ∧
      o.report.values.sum ≤ (packets.map Packet.bytes).sum ∧
      (o.report.values.sum = (packets.map Packet.bytes).sum ↔ o.aggregated.networks.Nodup) := by
  obtain ⟨t, _, ht, htotal, hlists, -⟩ := Tree.exists_ofPackets packets
  obtain ⟨t', -, hw, -⟩ := aggregate_v4 θ (hlists.all hlists.v4)
  obtain ⟨htotal', -, hkept⟩ := aggregate_settled θ t
  rw [hw] at htotal' hkept
  have hnonneg : ∀ a, 0 ≤ bytesFrom packets a := fun a => sum_nonneg (forall_mem_map.mpr
    fun p hp => (hpos p (mem_filter.mp hp).1).le)
  obtain ⟨hle, hiff⟩ := Tree.report_sum (hkept (hlists.all fun a _ => hnonneg a))
  rw [htotal', htotal] at hle hiff
  exact ⟨⟨t, t', t'.report⟩, outcome_eq_ok ht hw, htotal'.trans htotal, hle, hiff⟩

def packet (source : Nat) (bytes : Int) : Packet :=
  ⟨Address.ofNat .v4 source, bytes, rfl⟩

theorem report_sum_eq_iff_merged :
    let packets := [packet 7 60, packet 4 1, packet 9 80, packet 7 2]
    (∀ p ∈ packets, 0 < p.bytes) ∧
      ∃ o, outcome Widening.aggregate 3 packets = .ok o ∧ o.aggregated.total = 143 ∧
        o.report.values.sum ≤ 143 ∧
        (o.report.values.sum = 143 ↔ o.aggregated.networks.Nodup) :=
  ⟨by decide, report_sum_eq_iff _ (by decide) 3⟩

/-- Two nodes become the same network, and the bytes of the first one are lost. -/
theorem bytes_lost :
    let packets := [packet 0 1, packet 3 1, packet 1 1, packet 2 1]
    (outcome Widening.aggregate 2 packets).map (fun o => o.report.values.sum) = .ok 2 ∧
      (packets.map Packet.bytes).sum = 4 := by
  decide +kernel

end Practicum.Net.Traffic
