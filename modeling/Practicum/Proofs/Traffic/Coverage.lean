import Practicum.Proofs.Traffic.Aggregation

/-!
# What an aggregated network covers

A record is kept of the sources that each node of an aggregated tree took over. The network of a
node never leaves the smallest network around them, so it covers them all exactly if it is that
network, and it does so if only networks without common addresses were merged.
-/

namespace Practicum.Net.Traffic

open Network List Widening

def Source.lowest : Source → Address
  | address a => a
  | network n => n.first

/-- For each node of an aggregated tree, the nodes whose bytes were merged into it: their lowest
addresses and their bytes. -/
inductive Holdings where
  | empty
  | node (left : Holdings) (sources : List (Address × Int)) (right : Holdings)
  deriving DecidableEq

namespace Holdings

def sources : Holdings → List (Address × Int)
  | empty => []
  | node _ sources _ => sources

def hollow : Holdings → Holdings
  | node empty _ empty => empty
  | h => h

end Holdings

def holdings (θ : Rat) : Tree → Holdings
  | .empty => .empty
  | .node left source bytes right =>
    let l := holdings θ left
    let r := holdings θ right
    let takesLeft := Differing.isSmall θ (aggregate θ left).1
    let takesRight := Differing.isSmall θ (aggregate θ right).1
    .node (if takesLeft then l.hollow else l)
      ((source.lowest, bytes) ::
        (if takesLeft then l.sources else []) ++ (if takesRight then r.sources else []))
      (if takesRight then r.hollow else r)

/-- A node takes over the bytes of a neighbour only if their two networks stand in a relation. -/
def Takes (C : Network → Network → Prop) (θ : Rat) (neighbour : Tree) (source : Source) : Prop :=
  match neighbour with
  | .empty => True
  | .node _ near count _ => (count : Rat) < θ → C near.asNetwork source.asNetwork

/-- Only networks that stand in a relation are merged. -/
def Merges (C : Network → Network → Prop) (θ : Rat) : Tree → Prop
  | .empty => True
  | .node left source bytes right =>
    let l := (aggregate θ left).1
    Merges C θ left ∧ Merges C θ right ∧ Takes C θ l source ∧
      Takes C θ (aggregate θ right).1 (absorb θ l source bytes).source

/-- Each node of a tree stands in a relation to its record. -/
inductive Tree.Matches (P : Source → Int → List (Address × Int) → Prop) : Tree → Holdings → Prop
  | empty : Tree.Matches P .empty .empty
  | node {left right : Tree} {l r : Holdings} {source : Source} {bytes : Int}
      {sources : List (Address × Int)} (hleft : Tree.Matches P left l)
      (hroot : P source bytes sources) (hright : Tree.Matches P right r) :
      Tree.Matches P (.node left source bytes right) (.node l sources r)

/-- The root stands in a relation of its own to its record: it has not given its bytes away yet. -/
inductive Tree.Rooted (R P : Source → Int → List (Address × Int) → Prop) : Tree → Holdings → Prop
  | empty : Tree.Rooted R P .empty .empty
  | node {left right : Tree} {l r : Holdings} {source : Source} {bytes : Int}
      {sources : List (Address × Int)} (hleft : left.Matches P l) (hroot : R source bytes sources)
      (hright : right.Matches P r) :
      Tree.Rooted R P (.node left source bytes right) (.node l sources r)

variable {C : Network → Network → Prop} {θ : Rat} {t : Tree} {source near : Source} {bytes : Int}
  {sources ys : List (Address × Int)} {P R : Source → Int → List (Address × Int) → Prop}
  {h : Holdings}

/-- Each merge keeps the relation of the roots, which gives that of all other nodes. -/
structure Kept (C : Network → Network → Prop) (R P : Source → Int → List (Address × Int) → Prop) :
    Prop where
  inner : ∀ {s b xs}, R s b xs → P s b xs
  given : ∀ {s b xs}, R s b xs → P s 0 xs
  merge : ∀ {near count ys s b xs}, near.asNetwork.family = .v4 → s.asNetwork.family = .v4 →
    C near.asNetwork s.asNetwork → R near count ys → R s b xs →
    R (.network (common near.asNetwork.first s.asNetwork.first)) (count + b) (xs ++ ys)

namespace Kept

variable (hkept : Kept C R P)
include hkept

theorem matches_of_rooted (hrooted : t.Rooted R P h) : t.Matches P h := by
  cases hrooted with
  | empty => exact .empty
  | node hleft hroot hright => exact .node hleft (hkept.inner hroot) hright

theorem matches_hollow (hrooted : t.Rooted R P h) : t.hollow.Matches P h.hollow := by
  cases hrooted with
  | empty => exact .empty
  | node hleft hroot hright =>
    have hnode := Tree.Matches.node hleft (hkept.given hroot) hright
    cases hleft <;> cases hright
    · exact .empty
    all_goals exact hnode

theorem absorb (ht : t.V4) (hs : source.asNetwork.family = .v4)
    (htakes : Takes C θ t source) (hrooted : t.Rooted R P h) (hroot : R source bytes sources) :
    (absorb θ t source bytes).neighbour.Matches P (if Differing.isSmall θ t then h.hollow else h) ∧
      R (absorb θ t source bytes).source (absorb θ t source bytes).bytes
        (sources ++ if Differing.isSmall θ t then h.sources else []) := by
  obtain ⟨hsmall, ha⟩ | ⟨l, _, _, r, rfl, hsmall, ha⟩ :=
    absorb_cases θ bytes ht hs
  · simp only [ha, hsmall, Bool.false_eq_true, if_false, append_nil]
    exact ⟨hkept.matches_of_rooted hrooted, hroot⟩
  simp only [ha, hsmall, if_true]
  refine ⟨hkept.matches_hollow hrooted, ?_⟩
  cases hrooted with
  | node _ hnear _ =>
    exact hkept.merge (Tree.all_node.mp ht).2.1 hs
      (htakes (by simpa [Differing.isSmall] using hsmall)) hnear hroot

theorem aggregate (ht : t.V4)
    (hstart : t.All fun e => R e.1 e.2 [(e.1.lowest, e.2)]) (hmerges : Merges C θ t) :
    (aggregate θ t).1.Matches P (holdings θ t) := by
  obtain ⟨t', -, hw, -, hrooted⟩ := aggregate_induction (θ := θ)
    (motive := fun t t' => (t.All fun e => R e.1 e.2 [(e.1.lowest, e.2)]) →
      Merges C θ t → t'.Rooted R P (holdings θ t))
    (fun _ _ => .empty)
    (by
      intro l left s b r right hl hs hr hwl hwr ihl ihr hstart hmerges
      obtain ⟨hstartl, hroot, hstartr⟩ := Tree.all_node.mp hstart
      obtain ⟨hml, hmr, htakes, htakes'⟩ := hmerges
      rw [hwl] at htakes htakes'
      rw [hwr] at htakes'
      obtain ⟨hleft, hroot'⟩ := hkept.absorb hl hs htakes (ihl hstartl hml) hroot
      obtain ⟨hright, hroot''⟩ := hkept.absorb hr (absorb_v4 θ b hl hs).2.1 htakes'
        (ihr hstartr hmr) hroot'
      simp only [holdings, hwl, hwr]
      exact .node hleft hroot'' hright)
    ht
  rw [hw]
  exact hkept.matches_of_rooted (hrooted hstart hmerges)

end Kept

theorem merges_true (θ : Rat) (t : Tree) : Merges (fun _ _ => True) θ t := by
  have htakes : ∀ t s, Takes (fun _ _ => True) θ t s := fun t s => by
    cases t <;> simp [Takes]
  induction t with
  | empty => trivial
  | node l s b r ihl ihr => exact ⟨ihl, ihr, htakes _ _, htakes _ _⟩

def Covers (source : Source) (sources : List (Address × Int)) : Prop :=
  ∀ e ∈ sources, source.asNetwork.contains e.1 = true

/-- The network of a node lies within every network that holds all its sources. -/
def WithinCovers (source : Source) (sources : List (Address × Int)) : Prop :=
  ∀ n : Network, (∀ e ∈ sources, n.contains e.1 = true) → source.asNetwork.Within n

theorem withinCovers_address (a : Address) (bytes : Int) :
    WithinCovers (.address a) [(a, bytes)] := by
  intro n hn
  have ha : n.contains a = true := hn (a, bytes) mem_cons_self
  exact around_within ha ((contains_iff.mp ha).1 ▸ n.length_le)

/-- Only the lowest addresses of two networks are looked at, which every cover holds. -/
theorem WithinCovers.merge (hnear : WithinCovers near ys) (hs : WithinCovers source sources) :
    WithinCovers (.network (common near.asNetwork.first source.asNetwork.first))
      (sources ++ ys) := by
  intro n hn
  obtain ⟨hleft, hright⟩ := forall_mem_append.mp hn
  exact common_within (hnear n hright _ (contains_first _)) (hs n hleft _ (contains_first _))

theorem Covers.merge (hfamily : near.asNetwork.family = .v4)
    (hfamily' : source.asNetwork.family = .v4) (happart : near.asNetwork.Apart source.asNetwork)
    (hnear : Covers near ys) (hs : Covers source sources) :
    Covers (.network (common near.asNetwork.first source.asNetwork.first)) (sources ++ ys) := by
  have heq : near.asNetwork.family = source.asNetwork.family := hfamily.trans hfamily'.symm
  refine forall_mem_append.mpr ⟨fun e he => ?_, fun e he => ?_⟩
  · have hwithin := happart.symm.within_common heq.symm
    rw [common_comm hfamily' hfamily] at hwithin
    exact hwithin _ (hs e he)
  · exact happart.within_common heq _ (hnear e he)

/-- A root counts the bytes of its sources; any other node may have given them away. -/
theorem kept_withinCovers : Kept (fun _ _ => True)
    (fun s b held => b = (held.map Prod.snd).sum ∧ WithinCovers s held)
    (fun s b held => (b = 0 ∨ b = (held.map Prod.snd).sum) ∧ WithinCovers s held) where
  inner h := ⟨.inr h.1, h.2⟩
  given h := ⟨.inl rfl, h.2⟩
  merge := by
    rintro _ _ _ s b _ - - - ⟨rfl, hnear⟩ ⟨rfl, hs⟩
    exact ⟨by simp [add_comm], hnear.merge hs⟩

theorem kept_covers : Kept Apart (fun s _ held => Covers s held) (fun s _ held => Covers s held) where
  inner h := h
  given h := h
  merge hfamily hfamily' happart hnear hs := hnear.merge hfamily hfamily' happart hs

/-- A node counts the bytes of the sources that were merged into it, unless it gave them away, and
its network lies within every network that holds all these sources; so it holds them itself exactly
if it is the smallest of those networks. It does if no two networks with a common address were
merged. -/
theorem networks_withinCovers (packets : List Packet) (θ : Rat) :
    ∃ o, outcome Widening.aggregate θ packets = .ok o ∧
      o.aggregated.Matches
        (fun s b held => (b = 0 ∨ b = (held.map Prod.snd).sum) ∧ WithinCovers s held)
        (holdings θ o.built) ∧
      (Merges Apart θ o.built →
        o.aggregated.Matches (fun s _ held => Covers s held) (holdings θ o.built)) := by
  obtain ⟨t, ht, hall⟩ := Tree.exists_ofPackets_v4 packets
  have hv4 := Tree.V4.of_addresses hall
  obtain ⟨t', -, hw, -⟩ := aggregate_v4 θ hv4
  have hwithin := kept_withinCovers.aggregate (θ := θ) hv4 (hall.mono ?_) (merges_true θ t)
  have hcovers := kept_covers.aggregate (θ := θ) hv4 (hall.mono ?_)
  · rw [hw] at hwithin hcovers
    exact ⟨⟨t, t', t'.report⟩, outcome_eq_ok ht hw, hwithin, hcovers⟩
  · rintro ⟨_, b⟩ ⟨a, rfl, -⟩
    exact forall_mem_singleton.mpr (contains_around ..)
  · rintro ⟨_, b⟩ ⟨a, rfl, -⟩
    exact ⟨by simp, withinCovers_address a b⟩

theorem networks_withinCovers_pair :
    ∃ o, outcome Widening.aggregate 3 [packet 2 5, packet 1 1] = .ok o ∧ Merges Apart 3 o.built ∧
      o.aggregated.Matches (fun s _ held => Covers s held) (holdings 3 o.built) := by
  obtain ⟨o, ho, -, hcovers⟩ := networks_withinCovers [packet 2 5, packet 1 1] 3
  have hbuilt : o.built = .node (.leaf (.address (Address.ofNat .v4 1)) 1)
      (.address (Address.ofNat .v4 2)) 5 .empty := by
    have hmap := congrArg (Except.map Outcome.built) ho
    exact (Except.ok.inj hmap).symm
  have happart : (only (Address.ofNat .v4 1)).Apart (only (Address.ofNat .v4 2)) := by
    intro a ha
    rw [← Bool.not_eq_true, contains_iff]
    rw [contains_iff] at ha
    simp [only, around, hostBits, Address.ofNat, Family.bits] at ha ⊢
    omega
  have hmerges : Merges Apart 3 o.built := by
    rw [hbuilt]
    exact ⟨⟨trivial, trivial, trivial, trivial⟩, trivial, fun _ => happart, trivial⟩
  exact ⟨o, ho, hmerges, hcovers hmerges⟩

/-- The network of the right node starts at the root's address, and only this address is left. -/
theorem source_uncovered :
    ∃ o, outcome Widening.aggregate 4 [packet 0 1, packet 2 1, packet 1 1] = .ok o ∧
      ¬ o.aggregated.Matches (fun s _ held => Covers s held) (holdings 4 o.built) := by
  let address (n : Nat) : Address := Address.ofNat .v4 n
  let built : Tree := .node .empty (.address (address 0)) 1
    (.node (.leaf (.address (address 1)) 1) (.address (address 2)) 1 .empty)
  refine ⟨⟨built, .leaf (.network (only (address 0))) 3, [(only (address 0), 3)]⟩,
    by decide +kernel, ?_⟩
  have hheld : holdings 4 built =
      .node .empty [(address 0, 1), (address 2, 1), (address 1, 1)] .empty := by
    decide +kernel
  rw [hheld]
  rintro (_ | ⟨-, hroot, -⟩)
  exact absurd (hroot (address 1, 1) (by simp)) (by decide)

end Practicum.Net.Traffic
