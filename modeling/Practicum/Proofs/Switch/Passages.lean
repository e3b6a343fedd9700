import Practicum.Proofs.Switch.Handling

/-!
# Two ways through a gateway

A packet that may pass is translated twice: the gateway rebuilds it and sends it out itself, and it
installs a rule whose actions do the same to the packets that follow. But the gateway rebuilds the
headers only, so that what it sends is what the rule would send exactly if the packet carries
nothing.
-/

namespace Practicum.Net

open List

variable {p : Passage} {t t' : Gateway} {inPort : Int} {s : Segment}

namespace Packet.Segment

open Switch

def value? (inPort : Int) (s : Segment) : Field → Option FieldValue
  | .inPort => some (.number inPort)
  | .ethSource => some (.mac (.ofMac s.ethernet.source))
  | .ethTarget => some (.mac (.ofMac s.ethernet.target))
  | .ethType => some (.number s.ethernet.type)
  | .ipProtocol => some (.number s.ip.protocol)
  | .ipv4Source => some (.address s.ip.source)
  | .ipv4Target => some (.address s.ip.target)
  | .tcpSource => some (.number s.tcp.sourcePort)
  | .tcpTarget => some (.number s.tcp.targetPort)
  | .other _ => none

/-- A segment with another value in a field, if it is one of its fields that can have the value. -/
def set? (s : Segment) (field : Field) (value : FieldValue) : Option Segment :=
  match field, value with
  | .ethSource, .mac m => m.mac?.map fun source => { s with ethernet := { s.ethernet with source } }
  | .ethTarget, .mac m => m.mac?.map fun target => { s with ethernet := { s.ethernet with target } }
  | .ipv4Source, v => v.asAddress.toOption.map fun source => { s with ip := { s.ip with source } }
  | .ipv4Target, v => v.asAddress.toOption.map fun target => { s with ip := { s.ip with target } }
  | .tcpSource, v =>
    v.asNumber.toOption.map fun sourcePort => { s with tcp := { s.tcp with sourcePort } }
  | .tcpTarget, v =>
    v.asNumber.toOption.map fun targetPort => { s with tcp := { s.tcp with targetPort } }
  | _, _ => none

end Packet.Segment

namespace Switch

open Packet

/-- What a switch sends, and to which ports, when it carries out actions on a segment. -/
def carryOut : List Action → Segment → List (Int × Segment)
  | [], _ => []
  | .output port :: actions, s => (port, s) :: carryOut actions s
  | .set field value :: actions, s =>
    match s.set? field value with
    | some s => carryOut actions s
    | none => []

def RuleChange.Covers (r : RuleChange) (inPort : Int) (s : Segment) : Prop :=
  ∀ part ∈ r.fields, s.value? inPort part.1 = some part.2

instance (r : RuleChange) (inPort : Int) (s : Segment) : Decidable (r.Covers inPort s) :=
  inferInstanceAs (Decidable (∀ part ∈ r.fields, s.value? inPort part.1 = some part.2))

namespace Gateway

/-! ## What is sent -/

theorem passes_of_mem {data : Bytes} {message : Message}
    (h : message ∈ (t.packetIn inPort data).sent) (hnot : ∀ out, message ≠ sendOut inPort out) :
    ∃ s t' p out, Segment.read? data = some s ∧ Passes t inPort s t' p ∧
      writeSegment p.envelope p.ip p.tcp = .ok out ∧
      (t.packetIn inPort data).sent = [sendOut p.port out, .rule (p.rule t'.timeout)] := by
  have hnoAnswer : ¬Answers inPort (t.packetIn inPort data).sent := by
    rintro ⟨out, hsent⟩
    exact hnot out (mem_singleton.mp (hsent h))
  have houtcome := t.packetIn_outcome inPort data
  generalize (t.packetIn inPort data).state = t' at houtcome
  generalize (t.packetIn inPort data).sent = sent at *
  cases houtcome with
  | nothing hanswer => exact absurd hanswer hnoAnswer
  | entered _ _ hanswer => exact absurd hanswer hnoAnswer
  | passed hread hpasses hout => exact ⟨_, _, _, _, hread, hpasses, hout, rfl⟩

/-! ## What a rule does -/

theorem ethernet_eq_ok {e : Envelope} {ethernet : Ethernet} (h : e.ethernet = .ok ethernet) :
    e.target.mac? = some ethernet.target ∧ e.source.mac? = some ethernet.source ∧
      e.type = ethernet.type := by
  obtain ⟨_, _, htarget, hsource, ⟨⟩⟩ := of_bind₂ h
  dsimp only at htarget hsource
  split at htarget <;> cases htarget
  split at hsource <;> cases hsource
  exact ⟨‹_›, ‹_›, rfl⟩

theorem Passes.carryOut_eq (h : Passes t inPort s t' p) {ethernet : Ethernet}
    (hethernet : p.envelope.ethernet = .ok ethernet) :
    carryOut p.actions s = [(p.port, ⟨ethernet, p.ip, p.tcp, s.payload⟩)] := by
  obtain ⟨_, _, _⟩ := ethernet_eq_ok hethernet
  cases h with
  | inbound c entry p hport _ hpassage =>
    obtain ⟨_, _, _, haddress, ⟨⟩⟩ := of_bind₂ hpassage
    simp_all [carryOut, Segment.set?, Except.toOption]
  | outbound t' entry p hport _ hpassage =>
    obtain ⟨_, haddress, ⟨⟩⟩ := of_bind hpassage
    simp_all [carryOut, Segment.set?, Except.toOption, FieldValue.asNumber]

/-- The rule of a passage is for its own packet, but a packet from outside must be addressed to the
public address. -/
theorem Passes.covers_iff (h : Passes t inPort s t' p) (hs : s.Sized) (timeout : Int) :
    (p.rule timeout).Covers inPort s ↔
      (inPort = outerPort → .address s.ip.target = t.publicIp) := by
  have htype := hs.type
  have hprotocol := hs.ip.protocol
  cases h with
  | inbound c entry p hport hfound hpassage =>
    obtain ⟨_, _, -, -, ⟨⟩⟩ := of_bind₂ hpassage
    have hpublic : entry.publicPort = s.tcp.targetPort := by
      have hsome := List.find?_some hfound
      simp only [Bool.and_eq_true, decide_eq_true_iff, FieldValue.number.injEq] at hsome
      exact hsome.1
    simp [RuleChange.Covers, Passage.rule, Segment.value?, htype, hprotocol, hpublic, hport]
  | outbound t' entry p hport _ hpassage =>
    obtain ⟨publicIp, -, ⟨⟩⟩ := of_bind hpassage
    simp [RuleChange.Covers, Passage.rule, Segment.value?, htype, hprotocol, hport]

theorem Passes.total_eq (h : Passes t inPort s t' p) : p.ip.total = s.ip.total := by
  cases h with
  | inbound c entry p hport _ hpassage =>
    obtain ⟨_, _, -, -, ⟨⟩⟩ := of_bind₂ hpassage
    rfl
  | outbound t' entry p hport _ hpassage =>
    obtain ⟨_, -, ⟨⟩⟩ := of_bind hpassage
    rfl

/-- A gateway sends a packet on and installs a rule for it only together. The rule covers the packet,
but one from outside only if it is addressed to the public address. The actions of the rule make of
the packet a segment for the same port with the same payload; the gateway sends that segment without
its payload, which is the same exactly if it carries nothing. -/
theorem sent_eq_carryOut_iff {t : Gateway} {inPort : Int} {data : Bytes} {change : RuleChange}
    (h : .rule change ∈ (t.packetIn inPort data).sent) :
    ∃ s port out s', Segment.read? data = some s ∧
      (t.packetIn inPort data).sent = [sendOut port out, .rule change] ∧
      (change.Covers inPort s ↔ (inPort = outerPort → .address s.ip.target = t.publicIp)) ∧
      carryOut change.actions s = [(port, s')] ∧ s'.payload = s.payload ∧
      Segment.write { s' with payload := [] } = .ok out ∧
      (s'.write = .ok out ↔ s.payload = []) := by
  obtain ⟨s, t', p, out, hread, hpasses, hout, hsent⟩ := passes_of_mem h nofun
  have hchange : change = p.rule t'.timeout := by
    rw [hsent] at h
    simpa [sendOut] using h
  subst hchange
  have hsized := Segment.sized_of_read? hread
  have htotal : p.ip.total ≠ 0 := by
    have hlong := hsized.ip.total
    rw [hpasses.total_eq]
    omega
  obtain ⟨ethernet, hethernet⟩ := Segment.exists_ethernet_of_writeSegment hout
  rw [Segment.writeSegment_eq hethernet] at hout
  exact ⟨s, p.port, out, ⟨ethernet, p.ip, p.tcp, s.payload⟩, hread, hsent,
    hpasses.covers_iff hsized _, hpasses.carryOut_eq hethernet, rfl, hout,
    Segment.write_eq_write_empty_iff htotal hout⟩

def carrying (payload : Bytes) : Bytes :=
  [0, 0, 0, 0, 0, 0x10, 0, 0, 0, 0, 0, 2, 8, 0,
    0x45, 0, 0, .ofNat (40 + payload.length), 0, 0, 0, 0, 64, 6, 0, 0, 10, 0, 2, 100, 10, 0, 1, 100,
    4, 0, 0, 80, 0, 0, 0, 0, 0, 0, 0, 0, 0x50, 2, 0, 0, 0, 0, 0, 0] ++ payload

def carryingRule : RuleChange :=
  { priority := 1
    fields :=
      [(.ethType, .number typeIpv4), (.ipProtocol, .number protocolTcp),
       (.ipv4Source, .address (ipv4 10 0 2 100)), (.tcpSource, .number 1024),
       (.ipv4Target, .address (ipv4 10 0 1 100)), (.tcpTarget, .number 80), (.inPort, .number 2)]
    actions :=
      [.set .ethSource (.mac (.ofMac ⟨0x20⟩)), .set .ethTarget (.mac (.ofMac ⟨1⟩)),
       .set .ipv4Source (.address (ipv4 10 0 1 2)), .set .tcpSource (.number 1), .output 1]
    idleTimeout := 10
    report := true }

/-- A segment that carries nothing is sent on as its rule sends those that follow. -/
theorem sent_eq_carryOut_empty : .rule carryingRule ∈ (initial.packetIn 2 (carrying [])).sent ∧
      ∃ s out s', Segment.read? (carrying []) = some s ∧ carryingRule.Covers 2 s ∧
        carryOut carryingRule.actions s = [(1, s')] ∧ s'.write = .ok out ∧
        (initial.packetIn 2 (carrying [])).sent = [sendOut 1 out, .rule carryingRule] := by
  have hrule : .rule carryingRule ∈ (initial.packetIn 2 (carrying [])).sent := by
    decide +kernel
  refine ⟨hrule, ?_⟩
  obtain ⟨s, port, out, s', hread, hsent, hcovers, hcarried, -, -, hwrite⟩ :=
    sent_eq_carryOut_iff hrule
  have hempty : s.payload = [] := by
    have hpayload : (Segment.read? (carrying [])).map Segment.payload = some [] := rfl
    simpa [hread] using hpayload
  have hport : port = 1 := by
    have hports : (initial.packetIn 2 (carrying [])).sent.head?.map
        (Message.rec (fun _ _ actions _ => actions) fun _ => []) = some [.output 1] := rfl
    simpa [hsent, sendOut] using hports
  subst hport
  exact ⟨s, out, s', hread, hcovers.mpr fun h => absurd h (by decide), hcarried,
    hwrite.mpr hempty, hsent⟩

/-- A segment that carries two bytes is sent on without them, although its rule, which covers it, sends
them. -/
theorem payload_lost :
    ∃ s out s', Segment.read? (carrying [104, 105]) = some s ∧ carryingRule.Covers 2 s ∧
      carryOut carryingRule.actions s = [(1, s')] ∧ s'.payload = [104, 105] ∧
      (initial.packetIn 2 (carrying [104, 105])).sent = [sendOut 1 out, .rule carryingRule] ∧
      s'.write ≠ .ok out := by
  refine ⟨_, _, _, rfl, ?_, rfl, rfl, rfl, ?_⟩
  · decide +kernel
  · intro hsame
    have hbytes := congrArg Except.toOption hsame
    revert hbytes
    decide +kernel

end Gateway

end Switch

end Practicum.Net
