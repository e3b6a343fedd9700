import Mathlib.Data.List.Nodup
import Mathlib.Logic.Relation
import Practicum.Proofs.Switch.Ports

/-!
# The rules of a gateway's switch

A switch holds the rules that its gateway has installed, and any of them may end at any time. A
connection has two rules, one for each direction, and the end of either of them lets its entry
expire; the next new connection then takes over the port, although the other rule may still be
installed. That is the only way in which a rule can outlive the owner of its port.
-/

namespace Practicum.Net.Switch

open Packet List Table Gateway RuleChange

variable {inPort : Int} {entry : Entry} {rules : List RuleChange} {r change : RuleChange}
  {c : Connection}

/-! ## Rules -/

/-- What the report of the end of a rule says about its match. -/
def FlowEnd.ofMatch (fields : Match) : FlowEnd :=
  { inPort := get? fields .inPort
    ipv4Source := get? fields .ipv4Source
    tcpSource := get? fields .tcpSource
    ipv4Target := get? fields .ipv4Target
    tcpTarget := get? fields .tcpTarget }

namespace RuleChange

def written? (r : RuleChange) (field : Field) : Option FieldValue :=
  (r.actions.filterMap fun
    | .set f value => if f = field then some value else none
    | .output _ => none).getLast?

def output? (r : RuleChange) : Option Int :=
  (r.actions.filterMap fun
    | .output port => some port
    | .set .. => none).getLast?

def publicPort? (r : RuleChange) : Option FieldValue :=
  if get? r.fields .inPort = some (.number outerPort) then get? r.fields .tcpTarget
  else none

def connection? (r : RuleChange) : Option Connection :=
  (FlowEnd.ofMatch r.fields).connection?

/-- A rule leads to the owner of a public port: there is one, and the rule writes the private address
and port of its entry and sends packets to its port of the switch. -/
def LeadsToOwner (r : RuleChange) (t : Gateway) (port : FieldValue) : Prop :=
  ∃ c e, (c, e) ∈ t.table ∧ .number e.publicPort = port ∧
    r.written? .ipv4Target = some e.privateIp ∧ r.written? .tcpTarget = some e.privatePort ∧
    r.output? = some e.inPort

/-- A rule has not outlived the owner of its port: in the inward direction it leads to the owner, and
in the outward direction its connection owns the port that it writes. -/
structure Follows (r : RuleChange) (t : Gateway) : Prop where
  inbound : ∀ port, r.publicPort? = some port → r.LeadsToOwner t port
  outbound : ∀ c, r.connection? = some c →
    ∃ e, (c, e) ∈ t.table ∧ r.written? .tcpSource = some (.number e.publicPort)

end RuleChange

/-- The rules of a switch after a change. A new rule takes the place of one with the same match and
priority; a deletion is for all rules that ask for at least the given fields. -/
def applyChange (rules : List RuleChange) (change : RuleChange) : List RuleChange :=
  match change.command with
  | .add =>
    change :: rules.filter fun r => !(r.priority = change.priority && r.fields = change.fields)
  | .delete => rules.filter fun r => !change.fields.all (· ∈ r.fields)

/-! ## Gateway and switch -/

/-- A gateway, and the rules of its switch whose end has not been reported. -/
structure Site where
  gateway : Gateway
  rules : List RuleChange
  deriving DecidableEq, Repr

namespace Site

/-- A gateway handles an event of its switch, which carries out its messages. -/
def react (s : Site) (h : Handled Gateway) : Site :=
  { gateway := h.state, rules := (ruleChanges h.sent).foldl applyChange s.rules }

/-- A gateway as it starts, with the rule that hands packets over to it. -/
def start : Site :=
  react { gateway := .initial, rules := [] } initial.features

inductive Step : Site → Site → Prop
  | packet (s : Site) (inPort : Int) (data : Bytes) :
      Step s (s.react (s.gateway.packetIn inPort data))
  | idle (s : Site) (i : Nat) (r : RuleChange) (hr : s.rules[i]? = some r) :
      Step s (react { s with rules := s.rules.eraseIdx i }
        (s.gateway.flowRemoved (.ofMatch r.fields)))

def Reachable (s : Site) : Prop :=
  Relation.ReflTransGen Step start s

/-- Every rule for packets from outside leads to the owner of its port, and rules of different
connections do not write the same public port. -/
structure Consistent (s : Site) : Prop where
  inbound : ∀ r ∈ s.rules, ∀ port, r.publicPort? = some port → r.LeadsToOwner s.gateway port
  outbound : ∀ r ∈ s.rules, ∀ r' ∈ s.rules, ∀ c c', r.connection? = some c →
    r'.connection? = some c' → c ≠ c' → r.written? .tcpSource ≠ r'.written? .tcpSource

def Owned (s : Site) : Prop :=
  ∀ r ∈ s.rules, r.Follows s.gateway

/-- A step leaves no rule behind: a connection that loses its entry has no rule for packets from
inside, and a rule for packets from outside to its port leads to the new owner. -/
def Quiet (s t : Site) : Prop :=
  ∀ c e, (c, e) ∈ s.gateway.table → t.gateway.table.get? c = none → ∀ r ∈ s.rules,
    r.connection? ≠ some c ∧ (r.publicPort? = some (.number e.publicPort) →
        r.LeadsToOwner t.gateway (.number e.publicPort))

/-- What steps that leave no rule behind can lead to. -/
def QuietlyReachable (s : Site) : Prop :=
  Relation.ReflTransGen (fun s t => Step s t ∧ Quiet s t) start s

end Site

/-! ## The two rules of a connection -/

namespace Gateway

variable {e : Ethernet} {p : Passage} {t : Gateway}

theorem rule_of_outbound {ip : Ipv4} {tcp : Tcp} (h : t.outbound inPort e ip tcp entry = .ok p)
    (hport : inPort ≠ outerPort) (timeout : Int) : (p.rule timeout).publicPort? = none ∧
      (p.rule timeout).connection? = some (connectionOf ip tcp) ∧
      (p.rule timeout).written? .tcpSource = some (.number entry.publicPort) := by
  obtain ⟨_, -, ⟨⟩⟩ := of_bind h
  refine ⟨?_, rfl, rfl⟩
  simp [publicPort?, Passage.rule, get?, hport]

/-! ## What becomes of an entry -/

theorem Allotted.eq_of_publicPort (h : t.Allotted) {c' : Connection} {entry' : Entry}
    (hentry : (c, entry) ∈ t.table) (hentry' : (c', entry') ∈ t.table)
    (hport : entry'.publicPort = entry.publicPort) : (c', entry') = (c, entry) := by
  have hnodup := h.ports
  rw [Gateway.ports, values, map_map] at hnodup
  exact inj_on_of_nodup_map hnodup hentry' hentry hport

theorem stays_or_gone (h : t.Allotted) (e : Event) (hentry : (c, entry) ∈ t.table) :
    (∃ expired, (c, { entry with expired }) ∈ (t.handle e).state.table) ∨
      (t.handle e).state.table.get? c = none := by
  have hmark : ∀ c' mark, ∃ expired, (c, { entry with expired }) ∈ (t.mark c' mark).table := by
    intro c' mark
    refine ⟨if c = c' then mark else entry.expired, mem_map.mpr ⟨_, hentry, ?_⟩⟩
    by_cases hc : c = c' <;> simp [hc]
  rcases t.handle_cases e with hsame | ⟨c', hmarked⟩ | ⟨c', inPort, hfor⟩
  · rw [hsame]
    exact .inl ⟨entry.expired, hentry⟩
  · rw [hmarked]
    exact .inl (hmark c' true)
  · rw [hfor]
    cases hget : t.table.get? c' with
    | some _ =>
      simp only [entryFor, revive, hget]
      exact .inl (hmark c' false)
    | none =>
      simp only [entryFor, revive, hget]
      have hconnects := connect_connects h hget inPort
      generalize t.connect c' inPort = result at hconnects
      cases hconnects with
      | refused hused _ => exact .inl ⟨entry.expired, hentry⟩
      | extended hused _ =>
        exact .inl ⟨entry.expired, mem_append_left _ hentry⟩
      | handedOver before _ e behind htable _ =>
        have hperm := perm_of_eq htable
        rcases mem_cons.mp (hperm.mem_iff.mp hentry) with hold | hother
        · right
          obtain ⟨rfl, rfl⟩ := Prod.mk.inj hold
          have hkeys : t.table.keys.Perm (c :: keys (before ++ behind)) := hperm.map Prod.fst
          have hnot := (nodup_cons.mp (hkeys.nodup h.keys)).1
          have hne : c ≠ c' := by
            rintro rfl
            exact get?_eq_none_iff.mp hget (hkeys.mem_iff.mpr mem_cons_self)
          rw [get?_eq_none_iff]
          simpa [Table.keys, hne] using hnot
        · exact .inl ⟨entry.expired, mem_append_left _ hother⟩

theorem used_of_entryFor {t' : Gateway} (h : t.Allotted)
    (hfor : t.entryFor c inPort = (t', some entry)) :
    (c, entry) ∈ t'.table ∧ entry.expired = false := by
  cases hget : t.table.get? c with
  | some e =>
    simp only [entryFor, revive, hget, Prod.mk.injEq, Option.some.injEq] at hfor
    obtain ⟨rfl, rfl⟩ := hfor
    refine ⟨mem_map.mpr ⟨_, mem_of_get? hget, ?_⟩, rfl⟩
    simp
  | none =>
    simp only [entryFor, revive, hget] at hfor
    have hconnects := connect_connects h hget inPort
    rw [hfor] at hconnects
    cases hconnects with
    | extended | handedOver => exact ⟨mem_append_right _ (mem_singleton.mpr rfl), rfl⟩

end Gateway

/-! ## Steps -/

theorem mem_applyChange (h : r ∈ applyChange rules change) : r ∈ rules ∨ r = change := by
  rw [applyChange] at h
  split at h
  · rcases mem_cons.mp h with rfl | hmem
    · exact .inr rfl
    · exact .inl (mem_of_mem_filter hmem)
  · exact .inl (mem_of_mem_filter h)

theorem mem_applyChange_of_mem (hadd : change.command = .add) (h : r ∈ rules) :
    r ∈ applyChange rules change ∨ r.fields = change.fields := by
  simp only [applyChange, hadd, mem_cons, mem_filter]
  by_cases hfields : r.fields = change.fields
  · exact .inr hfields
  · exact .inl (.inr ⟨h, by simp [hfields]⟩)

namespace Site

variable {s t : Site}

theorem exists_event (h : Step s t) : ∃ e, t.gateway = (s.gateway.handle e).state := by
  cases h with
  | packet inPort data => exact ⟨.packet inPort data, rfl⟩
  | idle i r _ => exact ⟨.gone (.ofMatch r.fields), rfl⟩

theorem allotted_of_quietlyReachable (h : QuietlyReachable s) : s.gateway.Allotted := by
  induction h with
  | refl => exact allotted_initial
  | tail _ hst ih =>
    obtain ⟨e, he⟩ := exists_event hst.1
    rw [he]
    exact ih.handle e

theorem Owned.follows (h : s.Owned) (hs : s.gateway.Allotted) (hst : Step s t) (hquiet : Quiet s t)
    (hr : r ∈ s.rules) : r.Follows t.gateway := by
  obtain ⟨event, hevent⟩ := exists_event hst
  constructor
  · intro port hport
    obtain ⟨c, e, hentry, rfl, hip, htcp, hout⟩ := (h r hr).inbound port hport
    rcases stays_or_gone hs event hentry with ⟨expired, hstays⟩ | hgone
    · rw [← hevent] at hstays
      exact ⟨c, _, hstays, rfl, hip, htcp, hout⟩
    · rw [← hevent] at hgone
      exact (hquiet c e hentry hgone r hr).2 hport
  · intro c hc
    obtain ⟨e, hentry, hwritten⟩ := (h r hr).outbound c hc
    rcases stays_or_gone hs event hentry with ⟨expired, hstays⟩ | hgone
    · rw [← hevent] at hstays
      exact ⟨_, hstays, hwritten⟩
    · rw [← hevent] at hgone
      exact absurd hc (hquiet c e hentry hgone r hr).1

theorem follows_of_outcome {gateway gateway' : Gateway} {data : Bytes} {sent : List Message}
    (hs : gateway.Allotted) (h : Gateway.Outcome gateway inPort data gateway' sent) :
    ∀ r ∈ ruleChanges sent, r.Follows gateway' := by
  intro r hr
  cases h with
  | nothing hsent | entered _ _ hsent =>
    rw [hsent.ruleChanges] at hr
    cases hr
  | passed hread hpasses _ =>
    obtain rfl := mem_singleton.mp hr
    cases hpasses with
    | inbound c entry p hport hfound hpassage =>
      subst hport
      obtain ⟨privatePort, privateIp, -, -, ⟨⟩⟩ := of_bind₂ hpassage
      refine ⟨fun port hsome => ?_, fun c hsome => ?_⟩
      · exact ⟨_, _, mem_of_find?_eq_some hfound, Option.some.inj hsome, rfl, rfl, rfl⟩
      · cases hsome
    | outbound _ entry p hport hentry hpassage =>
      obtain ⟨hnone, hconnection, hwritten⟩ := rule_of_outbound hpassage hport gateway'.timeout
      refine ⟨fun port hsome => ?_, fun c hsome => ?_⟩
      · rw [hnone] at hsome
        cases hsome
      · rw [hconnection] at hsome
        obtain rfl := Option.some.inj hsome
        exact ⟨_, (used_of_entryFor hs hentry).1, hwritten⟩

theorem mem_foldl_applyChange {changes : List RuleChange}
    (h : r ∈ changes.foldl applyChange rules) : r ∈ rules ∨ r ∈ changes := by
  induction changes generalizing rules with
  | nil => exact .inl h
  | cons _ changes ih =>
    rcases ih h with hmem | hmem
    · rcases mem_applyChange hmem with hold | rfl
      · exact .inl hold
      · exact .inr mem_cons_self
    · exact .inr (mem_cons_of_mem _ hmem)

theorem Owned.step (h : s.Owned) (hs : s.gateway.Allotted) (hst : Step s t)
    (hquiet : Quiet s t) : t.Owned := by
  intro r hr
  cases hst with
  | packet inPort data =>
    rcases mem_foldl_applyChange hr with hold | hnew
    · exact h.follows hs (.packet s inPort data) hquiet hold
    · exact follows_of_outcome hs (s.gateway.packetIn_outcome inPort data) r hnew
  | idle i ended hended =>
    have hsent : (s.gateway.flowRemoved (.ofMatch ended.fields)).sent = [] := by
      simp only [flowRemoved]
      split <;> rfl
    have hold : r ∈ s.rules := by
      simp only [react, hsent] at hr
      exact mem_of_mem_eraseIdx hr
    exact h.follows hs (.idle s i ended hended) hquiet hold

theorem ne_of_gone {gateway : Gateway} (h : r.Follows gateway)
    (hgone : gateway.table.get? c = none) : r.connection? ≠ some c := by
  intro hc
  obtain ⟨e, hentry, -⟩ := h.outbound c hc
  exact get?_eq_none_iff.mp hgone (mem_map_of_mem hentry)

/-- Conversely, a step after which no rule has outlived its owner has left none behind. -/
theorem Owned.quiet (ht : t.Owned) (hs : s.gateway.Allotted) (hst : Step s t) : Quiet s t := by
  intro c e hentry hgone r hr
  have hget := get?_of_mem hs.keys hentry
  cases hst with
  | idle i _ _ =>
    simp only [react, flowRemoved] at hgone
    split at hgone
    · rw [mark, get?_update, hget] at hgone
      split at hgone <;> cases hgone
    · rw [hget] at hgone
      cases hgone
  | packet inPort data =>
    have houtcome := s.gateway.packetIn_outcome inPort data
    simp only [react] at hgone ht ⊢
    generalize (s.gateway.packetIn inPort data).state = gateway' at *
    generalize (s.gateway.packetIn inPort data).sent = sent at *
    cases houtcome with
    | nothing _ =>
      rw [hget] at hgone
      cases hgone
    | entered _ _ hsent =>
      rw [hsent.ruleChanges] at ht
      exact ⟨ne_of_gone (ht r hr) hgone, (ht r hr).inbound _⟩
    | @passed _ _ p _ _ hpasses _ =>
      cases hpasses with
      | inbound =>
        rw [hget] at hgone
        cases hgone
      | outbound _ _ _ hport _ hpassage =>
        have hadded : (p.rule gateway'.timeout).command = .add := rfl
        rcases mem_applyChange_of_mem hadded hr with hkept | hfields
        · exact ⟨ne_of_gone (ht r hkept) hgone, (ht r hkept).inbound _⟩
        -- The rule has given its place to one with the same match, which follows its owner.
        have hne := ne_of_gone (ht (p.rule gateway'.timeout) mem_cons_self) hgone
        have hnone := (rule_of_outbound hpassage hport gateway'.timeout).1
        rw [connection?, ← hfields] at hne
        rw [publicPort?, ← hfields] at hnone
        refine ⟨hne, fun hpublic => ?_⟩
        rw [publicPort?, hnone] at hpublic
        cases hpublic

/-- If no rule has outlived its owner, the rules are consistent, since no two entries share a
port. -/
theorem Owned.consistent (h : s.Owned) (hs : s.gateway.Allotted) : s.Consistent := by
  refine ⟨fun r hr => (h r hr).inbound, ?_⟩
  intro r hr r' hr' c c' hc hc' hne hwritten
  obtain ⟨e, hentry, he⟩ := (h r hr).outbound c hc
  obtain ⟨e', hentry', he'⟩ := (h r' hr').outbound c' hc'
  have hsame : e.publicPort = e'.publicPort := by
    rw [he, he'] at hwritten
    simpa using hwritten
  exact hne (congrArg Prod.fst (hs.eq_of_publicPort hentry' hentry hsame))

theorem owned_start : start.Owned := by
  have hrules : start.rules =
      [{ priority := 0, fields := [], actions := [.output controllerPort], report := true }] := rfl
  intro r hr
  rw [hrules, mem_singleton] at hr
  subst hr
  constructor
  · intro port hport
    simp [publicPort?, get?] at hport
  · intro c hc
    cases hc

theorem owned_of_quietlyReachable (h : QuietlyReachable s) : s.Owned := by
  induction h with
  | refl => exact owned_start
  | tail hrun hst ih => exact ih.step (allotted_of_quietlyReachable hrun) hst.1 hst.2

/-- As long as no step leaves a rule behind, every rule for packets from outside leads to the owner
of its port and rules of different connections do not write the same public port. A step lets a rule
outlive the owner of its port exactly if it leaves one behind. -/
theorem consistent_and_owned_iff_quiet {s : Site} (h : QuietlyReachable s) :
    s.Owned ∧ s.Consistent ∧ ∀ t, Step s t → (t.Owned ↔ Quiet s t) := by
  have hs := allotted_of_quietlyReachable h
  have howned := owned_of_quietlyReachable h
  refine ⟨howned, howned.consistent hs, fun t hst => ?_⟩
  exact ⟨fun ht => ht.quiet hs hst, howned.step hs hst⟩

/-! ## A rule that outlives its owner -/

def answer : Bytes :=
  [0, 0, 0, 0, 0, 0x20, 0, 0, 0, 0, 0, 1, 8, 0,
    0x45, 0, 0, 40, 0, 0, 0, 0, 64, 6, 0, 0, 10, 0, 1, 100, 10, 0, 1, 2,
    0, 80, 0, 1, 0, 0, 0, 0, 0, 0, 0, 0, 0x50, 0x12, 0, 0, 0, 0, 0, 0]

def opened : Site :=
  start.react (start.gateway.packetIn 2 (opening 2 100))

def answered : Site :=
  opened.react (opened.gateway.packetIn 1 answer)

/-- Up to the answer no rule is left behind, and the two rules of the connection are consistent. -/
theorem consistent_answered : (∃ inward outward first, answered.rules = [inward, outward, first] ∧
      inward.publicPort? = some (.number 1) ∧
      outward.written? .tcpSource = some (.number 1)) ∧ answered.Consistent := by
  have hopened : Quiet start opened := by
    intro c e hentry
    cases hentry
  have hanswered : Quiet opened answered := by
    intro c e hentry hgone
    have hstays : ∀ entry ∈ opened.gateway.table, answered.gateway.table.get? entry.1 ≠ none := by
      decide +kernel
    exact absurd hgone (hstays _ hentry)
  have hrun : QuietlyReachable answered :=
    (Relation.ReflTransGen.single ⟨.packet start 2 _, hopened⟩).tail
      ⟨.packet opened 1 answer, hanswered⟩
  exact ⟨⟨_, _, _, rfl, rfl, rfl⟩, (consistent_and_owned_iff_quiet hrun).2.1⟩

def ended : Site :=
  react { answered with rules := answered.rules.eraseIdx 1 } (answered.gateway.flowRemoved
      { inPort := some (.number 2)
        ipv4Source := some (.address (ipv4 10 0 2 100))
        tcpSource := some (.number 1024)
        ipv4Target := some (.address (ipv4 10 0 1 100))
        tcpTarget := some (.number 80) })

def takenOver : Site :=
  ended.react (ended.gateway.packetIn 3 (opening 2 101))

theorem step_ended : Step answered ended := by
  have hended : ∃ r, answered.rules[1]? = some r ∧ FlowEnd.ofMatch r.fields =
      { inPort := some (.number 2)
        ipv4Source := some (.address (ipv4 10 0 2 100))
        tcpSource := some (.number 1024)
        ipv4Target := some (.address (ipv4 10 0 1 100))
        tcpTarget := some (.number 80) } := ⟨_, rfl, rfl⟩
  obtain ⟨r, hr, hfields⟩ := hended
  have hstep := Step.idle answered 1 r hr
  rwa [hfields] at hstep

/-- The rule for answers to the first connection leads to the host 10.0.2.100, although the port is
now that of the host 10.0.2.101. -/
theorem outlived_takenOver : Reachable takenOver ∧ ¬ takenOver.Consistent := by
  refine ⟨?_, fun h => ?_⟩
  · have hopened : Step start opened := .packet start 2 _
    have hanswered : Step opened answered := .packet opened 1 answer
    have htaken : Step ended takenOver := .packet ended 3 _
    exact (((Relation.ReflTransGen.single hopened).tail hanswered).tail step_ended).tail htaken
  · have hrule : ∃ r ∈ takenOver.rules, r.publicPort? = some (.number 1) ∧
        r.written? .ipv4Target = some (.address (Gateway.ipv4 10 0 2 100)) := by
      decide +kernel
    have howner : ∀ entry ∈ takenOver.gateway.table,
        entry.2.privateIp = .address (Gateway.ipv4 10 0 2 101) := by
      decide +kernel
    obtain ⟨r, hr, hport, hwritten⟩ := hrule
    obtain ⟨c, e, hentry, -, hip, -⟩ := h.inbound r hr _ hport
    rw [hwritten, howner _ hentry] at hip
    revert hip
    decide

end Site

end Practicum.Net.Switch
