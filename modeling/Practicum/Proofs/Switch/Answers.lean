import Mathlib.Data.List.Induction
import Practicum.Proofs.Switch.Passages
import Practicum.Proofs.Switch.Rules

/-!
# Answers from outside

A packet from inside leaves a gateway with a public port, and what comes back to that port is looked
up in the whole table. As long as no rule of the connection is reported gone, its entry stays in use;
an entry in use gives its port to nobody, so the look-up finds it, and the answer is delivered to where
the first packet of the connection came from.
-/

namespace Practicum.Net.Switch

open Packet List Segment

variable {t : Gateway} {c : Connection} {entry : Entry}

/-- A report is about the rule for the packets of a connection from inside, or about one for the
packets from outside to a public port. -/
def FlowEnd.Concerns (f : FlowEnd) (c : Connection) (port : Int) : Prop :=
  (∃ inPort, f.inPort = some inPort ∧ inPort ≠ .number outerPort ∧ f.connection? = some c) ∨
    f.inPort = some (.number outerPort) ∧ f.tcpTarget = some (.number port)

namespace Gateway

variable {events : List Event} {s : Segment} {c' : Connection} {inPort : Int}

/-! ## Entries in use -/

theorem packetIn_of_read? (t : Gateway) (inPort : Int) {data : Bytes} (h : read? data = some s) :
    t.packetIn inPort data = t.passThrough inPort s.ethernet s.ip s.tcp := by
  simp only [read?, Option.bind_eq_bind, Option.bind_eq_some_iff, Option.pure_def,
    Option.some.injEq] at h
  obtain ⟨f, hframe, ip, hip, tcp, htcp, rfl⟩ := h
  exact packetIn_eq_passThrough t inPort hframe hip htcp

/-- A connection has an entry in use with a public port, and no other entry has that port. -/
def Owns (t : Gateway) (c : Connection) (port : Int) : Prop :=
  (∃ entry, (c, entry) ∈ t.table ∧ entry.publicPort = port ∧ entry.expired = false) ∧
    ∀ c' entry, (c', entry) ∈ t.table → entry.publicPort = port → c' = c

section
variable (h : t.Allotted) (hentry : (c, entry) ∈ t.table)
include h hentry

theorem concerns_of_endedConnection? {report : FlowEnd}
    (hended : t.endedConnection? report = some c) : report.Concerns c entry.publicPort := by
  cases hport : report.inPort with
  | none => simp [endedConnection?, hport] at hended
  | some inPort =>
    by_cases houter : inPort = .number outerPort
    · subst houter
      right
      simp only [endedConnection?, hport, Option.bind_eq_bind, Option.bind_some, if_true,
        Option.bind_eq_some_iff, Option.pure_def, Option.some.injEq] at hended
      obtain ⟨_, htarget, ⟨c', e⟩, hfound, rfl⟩ := hended
      have hsome := find?_some hfound
      have hmem := mem_of_find?_eq_some hfound
      have hsame : entry = e := by
        have hboth := (Table.get?_of_mem h.keys hentry).symm.trans (Table.get?_of_mem h.keys hmem)
        exact Option.some.inj hboth
      simp only [Bool.and_eq_true, decide_eq_true_iff] at hsome
      rw [hsame]
      exact ⟨hport, htarget.trans (congrArg some hsome.1.symm)⟩
    · left
      simp only [endedConnection?, hport, Option.bind_eq_bind, Option.bind_some, if_neg houter,
        Option.bind_eq_some_iff, Option.pure_def, Option.some.injEq] at hended
      obtain ⟨c', hconnection, e, -, rfl⟩ := hended
      exact ⟨inPort, hport, houter, hconnection⟩

variable (hused : entry.expired = false)
include hused

theorem mem_entryFor (c' : Connection) (inPort : Int) :
    (c, entry) ∈ (t.entryFor c' inPort).1.table := by
  cases hget : t.table.get? c' with
  | some e =>
    simp only [entryFor, revive, hget]
    refine mem_map.mpr ⟨_, hentry, ?_⟩
    by_cases hc : c = c' <;> simp [← hused]
  | none =>
    simp only [entryFor, revive, hget]
    have hconnects := connect_connects h hget inPort
    generalize t.connect c' inPort = result at hconnects
    cases hconnects with
    | refused _ _ => exact hentry
    | extended _ _ => exact mem_append_left _ hentry
    | handedOver _ _ e _ htable hexpired =>
      rcases mem_cons.mp ((perm_of_eq htable).mem_iff.mp hentry) with hold | hother
      · obtain ⟨rfl, rfl⟩ := Prod.mk.inj hold
        rw [hexpired] at hused
        cases hused
      · exact mem_append_left _ hother

theorem mem_handle {e : Event}
    (hnot : ∀ report, e = .gone report → ¬ report.Concerns c entry.publicPort) :
    (c, entry) ∈ (t.handle e).state.table := by
  cases e with
  | packet inPort data =>
    rcases t.state_packetIn inPort data with hsame | ⟨s, -, -, hstate⟩
    · rw [handle, hsame]
      exact hentry
    · rw [handle, hstate]
      exact mem_entryFor h hentry hused _ inPort
  | gone report =>
    simp only [handle, flowRemoved]
    cases hended : t.endedConnection? report with
    | none => exact hentry
    | some c' =>
      have hne : c ≠ c' := by
        rintro rfl
        exact hnot report rfl (concerns_of_endedConnection? h hentry hended)
      refine mem_map.mpr ⟨_, hentry, ?_⟩
      simp [hne]

theorem mem_after (hnot : ∀ report, .gone report ∈ events → ¬ report.Concerns c entry.publicPort) :
    (c, entry) ∈ (t.after events).table := by
  induction events generalizing t with
  | nil => exact hentry
  | cons e events ih =>
    have hstep : (c, entry) ∈ (t.handle e).state.table := by
      apply mem_handle h hentry hused
      rintro report rfl
      exact hnot report mem_cons_self
    exact ih (h.handle e) hstep fun report hmem => hnot report (mem_cons_of_mem _ hmem)

theorem Allotted.owns : t.Owns c entry.publicPort := by
  refine ⟨⟨entry, hentry, rfl, hused⟩, fun _ _ hentry' hport => ?_⟩
  exact congrArg Prod.fst (h.eq_of_publicPort hentry hentry' hport)

theorem Allotted.findPublic? : t.findPublic? (.number entry.publicPort) = some (c, entry) := by
  cases hfound : t.findPublic? (.number entry.publicPort) with
  | none =>
    have hnone := find?_eq_none.mp hfound _ hentry
    simp [hused] at hnone
  | some _ =>
    have hsome := find?_some hfound
    have hmem := mem_of_find?_eq_some hfound
    simp only [Bool.and_eq_true, decide_eq_true_iff, FieldValue.number.injEq] at hsome
    exact congrArg some (h.eq_of_publicPort hentry hmem hsome.1)

end

/-! ## Where a connection came in -/

theorem new_of_mem_entryFor (h : t.Allotted) (hnew : c ∉ t.table.keys)
    (hentry : (c, entry) ∈ (t.entryFor c' inPort).1.table) :
    c = c' ∧ ∃ port, entry = newEntry c inPort port := by
  have hnone : ∀ e, (c, e) ∉ t.table := fun e hmem => hnew (mem_map.mpr ⟨_, hmem, rfl⟩)
  cases hget : t.table.get? c' with
  | some e =>
    simp only [entryFor, revive, hget] at hentry
    have hkeys : c ∈ (t.mark c' false).table.keys := mem_map.mpr ⟨_, hentry, rfl⟩
    rw [keys_mark] at hkeys
    exact absurd hkeys hnew
  | none =>
    simp only [entryFor, revive, hget] at hentry
    have hconnects := connect_connects h hget inPort
    generalize t.connect c' inPort = result at hconnects hentry
    cases hconnects with
    | refused _ _ => exact absurd hentry (hnone entry)
    | extended _ _ =>
      rcases mem_append.mp hentry with hold | hlast
      · exact absurd hold (hnone entry)
      · obtain ⟨rfl, rfl⟩ := Prod.mk.inj (mem_singleton.mp hlast)
        exact ⟨rfl, _, rfl⟩
    | handedOver _ _ e _ htable _ =>
      rcases mem_append.mp hentry with hold | hlast
      · have hin := (perm_of_eq htable).mem_iff.mpr (mem_cons_of_mem _ hold)
        exact absurd hin (hnone entry)
      · obtain ⟨rfl, rfl⟩ := Prod.mk.inj (mem_singleton.mp hlast)
        exact ⟨rfl, _, rfl⟩

theorem keys_flowRemoved (t : Gateway) (report : FlowEnd) :
    (t.flowRemoved report).state.table.keys = t.table.keys := by
  rw [flowRemoved]
  cases t.endedConnection? report with
  | none => rfl
  | some c => exact t.keys_mark c true

/-- In a run from the start the entry of a connection was made for a packet that came in on a port of
the switch, and the connection has had an entry ever since. -/
def MadeOn (events : List Event) (c : Connection) (port : Int) : Prop :=
  ∃ early first s since, events = early ++ .packet port first :: since ∧ port ≠ outerPort ∧
    read? first = some s ∧ connectionOf s.ip s.tcp = c ∧
    c ∉ (initial.after early).table.keys ∧
    ∀ part, part <+: since → c ∈ (initial.after (early ++ .packet port first :: part)).table.keys

theorem MadeOn.concat {port : Int} {e : Event} (h : MadeOn events c port)
    (hkept : c ∈ (initial.after (events ++ [e])).table.keys) : MadeOn (events ++ [e]) c port := by
  obtain ⟨early, first, s, since, rfl, hport, hread, hc, hnew, hsince⟩ := h
  rw [append_assoc] at hkept ⊢
  refine ⟨early, first, s, since ++ [e], rfl, hport, hread, hc, hnew, fun part hpart => ?_⟩
  rcases prefix_concat_iff.mp hpart with rfl | hpart
  · exact hkept
  · exact hsince part hpart

theorem madeOn_of_mem (hentry : (c, entry) ∈ (initial.after events).table) :
    entry.privateIp = c.privateIp ∧ entry.privatePort = c.privatePort ∧
      MadeOn events c entry.inPort := by
  induction events using reverseRecOn generalizing entry with
  | nil => cases hentry
  | append_singleton events e ih =>
    have hallotted := allotted_after events
    have hkept : c ∈ (initial.after (events ++ [e])).table.keys := mem_map.mpr ⟨_, hentry, rfl⟩
    by_cases hold : c ∈ (initial.after events).table.keys
    · -- The entry is the one there was, but for its mark.
      obtain ⟨⟨_, _⟩, hmem, rfl⟩ := mem_map.mp hold
      obtain ⟨hip, hport, hmade⟩ := ih hmem
      rcases stays_or_gone hallotted e hmem with ⟨_, hstays⟩ | hgone
      · rw [← after_concat] at hstays
        have hkeys := (allotted_after (events ++ [e])).keys
        have hboth := (Table.get?_of_mem hkeys hentry).symm.trans (Table.get?_of_mem hkeys hstays)
        rw [Option.some.inj hboth]
        exact ⟨hip, hport, hmade.concat hkept⟩
      · rw [← after_concat, Table.get?_eq_none_iff] at hgone
        exact absurd hkept hgone
    · rw [after_concat] at hentry
      cases e with
      | gone _ =>
        rw [after_concat, handle, keys_flowRemoved] at hkept
        exact absurd hkept hold
      | packet inPort data =>
        rcases state_packetIn _ inPort data with hsame | ⟨s, hread, hport, hstate⟩
        · rw [handle, hsame] at hentry
          exact absurd (mem_map.mpr ⟨_, hentry, rfl⟩) hold
        · rw [handle, hstate] at hentry
          obtain ⟨rfl, _, rfl⟩ := new_of_mem_entryFor hallotted hold hentry
          refine ⟨rfl, rfl, events, data, s, [], rfl, hport, hread, rfl, hold, fun _ hpart => ?_⟩
          rw [prefix_nil.mp hpart]
          exact hkept

/-! ## There and back -/

theorem exists_mac_macOf (host : Address) (default : Mac) :
    ∃ mac, (initial.macOf host default).mac? = some mac := by
  simp only [macOf, initial, Table.get?]
  split_ifs <;> exact ⟨_, rfl⟩

theorem sized_translated (h : s.Sized) {ethernet : Ethernet} {source target : Address}
    {sourcePort targetPort : Int} (htype : ethernet.type = s.ethernet.type)
    (hsource : source.family = .v4) (htarget : target.family = .v4)
    (hports : Tcp.PortsFit { s.tcp with sourcePort, targetPort }) : Segment.Sized
      ⟨ethernet, { s.ip with source, target }, { s.tcp with sourcePort, targetPort }, []⟩ where
  type := htype.trans h.type
  ip := { h.ip with source := hsource, target := htarget }
  words := h.words
  options := h.options
  ports := hports

theorem sent_outbound (hpublic : t.publicIp = initial.publicIp) {data out : Bytes} {sent : Segment}
    (hport : inPort ≠ outerPort) (hread : read? data = some s)
    (hout : sendOut outerPort out ∈ (t.packetIn inPort data).sent) (hsent : read? out = some sent) :
    ∃ entry, t.entryFor (connectionOf s.ip s.tcp) inPort =
        ((t.packetIn inPort data).state, some entry) ∧ sent.tcp.sourcePort = entry.publicPort := by
  have hnot : ∀ back, sendOut outerPort out ≠ sendOut inPort back := by
    intro back hsame
    simp only [sendOut, Message.packetOut.injEq, cons.injEq, Action.output.injEq] at hsame
    exact hport hsame.2.2.1.1.symm
  obtain ⟨s', t', p, out', hread', hpasses, hwrite, hmessages⟩ := passes_of_mem hout hnot
  obtain rfl : s = s' := Option.some.inj (hread.symm.trans hread')
  cases hpasses with
  | inbound c entry p houter _ hpassage => exact absurd houter hport
  | outbound t' entry p _ hentry hpassage =>
    have hstate : (t.packetIn inPort data).state = t' := by
      rw [t.packetIn_of_read? inPort hread, passThrough, if_neg hport, hentry]
      exact t'.state_dispatch _
    refine ⟨entry, by rw [hstate, hentry], ?_⟩
    obtain ⟨publicIp, haddress, ⟨⟩⟩ := of_bind hpassage
    have hfamily : publicIp.family = .v4 := by
      have hsame : t'.publicIp = t.publicIp := by
        obtain ⟨_, _, hfor⟩ := t.exists_entryFor_eq (connectionOf s.ip s.tcp) inPort
        rw [hentry] at hfor
        exact (congrArg Gateway.publicIp hfor :)
      rw [hsame, hpublic] at haddress
      rw [← Except.ok.inj haddress]
      rfl
    obtain rfl : out = out' := by
      rw [hmessages] at hout
      simpa [sendOut] using hout
    obtain ⟨_, hethernet⟩ := exists_ethernet_of_writeSegment hwrite
    rw [writeSegment_eq hethernet] at hwrite
    have hsized := sized_translated (sized_of_read? hread)
      (ethernet_eq_ok hethernet).2.2.symm hfamily (sized_of_read? hread).ip.target
      (writable_of_write hwrite).ports
    obtain ⟨_, hsent', -, -, hsource, -⟩ := hsized.read?_write hwrite
    rw [Option.some.inj (hsent.symm.trans hsent'), hsource]

theorem sent_inbound {table : Table Connection Entry} {nextPort : Int}
    (ht : t = { initial with table, nextPort }) {host : Address} {hostPort : Int}
    (hhost : entry.privateIp = .address host) (hfamily : host.family = .v4)
    (hhostPort : entry.privatePort = .number hostPort) (hfits : 0 ≤ hostPort ∧ hostPort < 65536)
    {answer : Bytes} {a : Segment} (hread : read? answer = some a)
    (hfound : t.findPublic? (.number a.tcp.targetPort) = some (c, entry))
    (hversion : a.ip.version = 4) (hwords : 5 ≤ a.ip.headerWords) : ∃ back rule delivered,
      (t.packetIn outerPort answer).sent = [sendOut entry.inPort back, .rule rule] ∧
      read? back = some delivered ∧ delivered.ip.target = host ∧
      delivered.tcp.targetPort = hostPort := by
  have hsized := sized_of_read? hread
  obtain ⟨p, hpassage⟩ : ∃ p, t.inbound outerPort a.ethernet a.ip a.tcp entry = .ok p := by
    simp only [inbound, hhost, hhostPort, FieldValue.asNumber, FieldValue.asAddress, bind,
      Except.bind, pure, Except.pure]
    exact ⟨_, rfl⟩
  have hdispatch : t.packetIn outerPort answer = t.dispatch (.ok p) := by
    rw [t.packetIn_of_read? outerPort hread, passThrough, hfound]
    exact congrArg t.dispatch hpassage
  obtain ⟨privatePort, privateIp, hnumber, haddress, ⟨⟩⟩ := of_bind₂ hpassage
  obtain rfl : hostPort = privatePort := by
    rw [hhostPort] at hnumber
    exact Except.ok.inj hnumber
  obtain rfl : host = privateIp := by
    rw [hhost] at haddress
    exact Except.ok.inj haddress
  obtain ⟨target, htarget⟩ := exists_mac_macOf host a.ethernet.target
  have hethernet : Envelope.ethernet
      { target := t.macOf host a.ethernet.target, source := t.innerMac, type := a.ethernet.type } =
      .ok { target, source := ⟨0x10⟩, type := a.ethernet.type } := by
    have hmac : (t.macOf host a.ethernet.target).mac? = some target := by
      rw [ht]
      exact htarget
    have hinner : t.innerMac = initial.innerMac := by rw [ht]
    simp [Envelope.ethernet, hmac, hinner, initial, WrittenMac.ofMac, bind, Except.bind, pure,
      Except.pure]
  have htranslated : Segment.Sized ⟨⟨target, ⟨0x10⟩, a.ethernet.type⟩, { a.ip with target := host },
      { a.tcp with targetPort := hostPort }, []⟩ :=
    sized_translated hsized rfl hsized.ip.source hfamily ⟨hsized.ports.1, hfits⟩
  have hwritable : Segment.Writable ⟨⟨target, ⟨0x10⟩, a.ethernet.type⟩, { a.ip with target := host },
      { a.tcp with targetPort := hostPort }, []⟩ := ⟨hversion, hwords, htranslated.ports⟩
  have htotal : a.ip.total ≠ 0 := by
    have hlong := hsized.ip.total
    omega
  have hwrite := hwritable.write_eq htotal
  obtain ⟨delivered, hdelivered, -, hip, -, hport⟩ := htranslated.read?_write hwrite
  rw [← writeSegment_eq hethernet] at hwrite
  exact ⟨_, _, delivered, hdispatch ▸ t.sent_dispatch_of_ok hwrite, hdelivered, hip, hport⟩

/-- What comes back to the public port with which a packet of a connection was sent out is delivered
to the private end of the connection, on the port of the switch on which the connection came in when
its entry was made, whatever else the gateway hears in between, unless it is a report that concerns the
connection; and no other connection has the public port. An answer must have a proper header: its
version is 4, and its length is at least five words. -/
theorem answers_delivered (before since : List Event) {inPort : Int} {data out : Bytes}
    {s sent : Segment} (hport : inPort ≠ outerPort) (hread : Segment.read? data = some s)
    (hout : sendOut outerPort out ∈ ((initial.after before).packetIn inPort data).sent)
    (hsent : Segment.read? out = some sent)
    (hsince : ∀ report, .gone report ∈ since →
      ¬ report.Concerns (connectionOf s.ip s.tcp) sent.tcp.sourcePort) :
    (initial.after (before ++ .packet inPort data :: since)).Owns (connectionOf s.ip s.tcp)
        sent.tcp.sourcePort ∧
      ∃ port, MadeOn (before ++ [.packet inPort data]) (connectionOf s.ip s.tcp) port ∧
        ∀ answer a, Segment.read? answer = some a → a.tcp.targetPort = sent.tcp.sourcePort →
          a.ip.version = 4 → 5 ≤ a.ip.headerWords →
          ∃ back rule delivered,
            ((initial.after (before ++ .packet inPort data :: since)).packetIn outerPort answer).sent =
              [sendOut port back, .rule rule] ∧
            Segment.read? back = some delivered ∧ delivered.ip.target = s.ip.source ∧
            delivered.tcp.targetPort = s.tcp.sourcePort := by
  have hpublic : (initial.after before).publicIp = initial.publicIp := by
    obtain ⟨table, nextPort, hafter⟩ := initial.exists_after_eq before
    rw [hafter]
  obtain ⟨entry, hentry, hsource⟩ := sent_outbound hpublic hport hread hout hsent
  rw [hsource] at hsince ⊢
  obtain ⟨hmem, hused⟩ := used_of_entryFor (allotted_after before) hentry
  rw [← handle, ← after_concat] at hmem
  obtain ⟨hip, hprivatePort, hmade⟩ := madeOn_of_mem hmem
  have hrun : initial.after (before ++ .packet inPort data :: since) =
      (initial.after (before ++ [.packet inPort data])).after since := by
    simp [after]
  have hallotted := allotted_after (before ++ .packet inPort data :: since)
  have hstays : (connectionOf s.ip s.tcp, entry) ∈
      (initial.after (before ++ .packet inPort data :: since)).table := by
    rw [hrun]
    exact mem_after (allotted_after _) hmem hused hsince
  refine ⟨hallotted.owns hstays hused, entry.inPort, hmade, ?_⟩
  intro answer a hanswer htarget hversion hwords
  obtain ⟨table, nextPort, hafter⟩ :=
    initial.exists_after_eq (before ++ .packet inPort data :: since)
  have hsized := Segment.sized_of_read? hread
  have hfound := hallotted.findPublic? hstays hused
  rw [← htarget] at hfound
  exact sent_inbound hafter hip hsized.ip.source hprivatePort hsized.ports.1 hanswer hfound hversion
    hwords

def otherEnded : FlowEnd :=
  { inPort := some (.number 3)
    ipv4Source := some (.address (ipv4 10 0 2 101))
    tcpSource := some (.number 1024)
    ipv4Target := some (.address (ipv4 10 0 1 100))
    tcpTarget := some (.number 80) }

def others : List Event :=
  [.packet 3 (opening 2 101), .gone otherEnded]

/-- The host 10.0.2.100 gets its answer, whatever has become of the connection of another host. -/
theorem answers_delivered_amongOthers : ∃ back rule delivered,
      ((initial.after (.packet 2 (opening 2 100) :: others)).packetIn outerPort Site.answer).sent =
        [sendOut 2 back, .rule rule] ∧
      Segment.read? back = some delivered ∧ delivered.ip.target = ipv4 10 0 2 100 ∧
      delivered.tcp.targetPort = 1024 := by
  obtain ⟨s, hread, hip, hhostPort⟩ : ∃ s, Segment.read? (opening 2 100) = some s ∧
      s.ip.source = ipv4 10 0 2 100 ∧ s.tcp.sourcePort = 1024 := ⟨_, rfl, rfl, rfl⟩
  obtain ⟨out, sent, hout, hsent, hpublic⟩ : ∃ out sent,
      sendOut outerPort out ∈ ((initial.after []).packetIn 2 (opening 2 100)).sent ∧
        Segment.read? out = some sent ∧ sent.tcp.sourcePort = 1 :=
    ⟨_, _, List.mem_cons_self, rfl, rfl⟩
  have hothers : ∀ report, .gone report ∈ others →
      ¬ report.Concerns (connectionOf s.ip s.tcp) sent.tcp.sourcePort := by
    rintro report hreport (⟨inPort, -, -, hconnection⟩ | ⟨houter, -⟩)
    · have hother : report = otherEnded := by simpa [others] using hreport
      rw [hother] at hconnection
      have hhost := congrArg Connection.privateIp (Option.some.inj hconnection)
      simp only [connectionOf, hip] at hhost
      revert hhost
      decide +kernel
    · have hother : report = otherEnded := by simpa [others] using hreport
      rw [hother] at houter
      revert houter
      decide
  obtain ⟨-, port, ⟨early, first, s', since, hevents, -⟩, hanswers⟩ :=
    answers_delivered [] others (by decide) hread hout hsent hothers
  have hport : port = 2 := by
    cases early with
    | nil =>
      simp only [List.nil_append, List.cons.injEq, Event.packet.injEq] at hevents
      exact hevents.1.1.symm
    | cons e early => simp at hevents
  subst hport
  have hanswer := hanswers Site.answer _ rfl hpublic.symm rfl (by decide)
  rwa [hip, hhostPort] at hanswer

end Gateway

end Practicum.Net.Switch
