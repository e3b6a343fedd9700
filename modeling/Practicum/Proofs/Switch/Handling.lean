import Practicum.Net.Switch.Gateway.Handling
import Practicum.Proofs.Packet.Segments

/-!
# What an event does to a gateway

A gateway hears of packets and of the ends of rules. Whatever it hears, it leaves its table as it
is, marks an entry as expired, or provides for a connection from inside; and it installs at most one
rule, for a packet that it passes on.
-/

namespace Practicum.Net.Switch

open Packet

inductive Event where
  | packet (inPort : Int) (data : Bytes)
  | gone (report : FlowEnd)
  deriving DecidableEq, Repr

def ruleChanges (messages : List Message) : List RuleChange :=
  messages.filterMap fun
    | .rule change => some change
    | .packetOut .. => none

namespace Gateway

def handle (t : Gateway) : Event → Handled Gateway
  | .packet inPort data => t.packetIn inPort data
  | .gone report => t.flowRemoved report

def after (t : Gateway) (events : List Event) : Gateway :=
  events.foldl (fun t e => (t.handle e).state) t

theorem after_concat (t : Gateway) (events : List Event) (e : Event) :
    t.after (events ++ [e]) = ((t.after events).handle e).state := by
  simp [after]

variable {t : Gateway} {e : Ethernet} {entry : Entry} {inPort : Int}

theorem after_invariant {P : Gateway → Prop} (hstart : P t)
    (hstep : ∀ t e, P t → P (t.handle e).state) (events : List Event) : P (t.after events) := by
  induction events generalizing t with
  | nil => exact hstart
  | cons e events ih => exact ih (hstep t e hstart)

/-! ## Packets -/

def Passage.rule (timeout : Int) (p : Passage) : RuleChange :=
  { priority := 1, fields := p.fields, actions := p.actions, idleTimeout := timeout, report := true }

@[simp]
theorem state_send (t : Gateway) (messages : Except WriteError (List Message)) :
    (t.send messages).state = t := by
  cases messages <;> rfl

@[simp]
theorem state_dispatch (t : Gateway) (passage : Except WriteError Passage) :
    (t.dispatch passage).state = t :=
  t.state_send _

@[simp]
theorem state_refuse (t : Gateway) (inPort : Int) (e : Ethernet) (ip : Ipv4) (tcp : Tcp) :
    (t.refuse inPort e ip tcp).state = t :=
  t.state_send _

/-- At most an answer is sent to where a packet came from. -/
def Answers (inPort : Int) (sent : List Message) : Prop :=
  ∃ out, sent ⊆ [sendOut inPort out]

theorem answers_nil : Answers inPort [] :=
  ⟨[], List.nil_subset _⟩

theorem answers_send_map (t : Gateway) (inPort : Int) (data : Except WriteError Bytes) :
    Answers inPort (t.send (data.map fun data => [sendOut inPort data])).sent := by
  cases data with
  | error _ => exact answers_nil
  | ok out => exact ⟨out, fun _ => id⟩

theorem Answers.ruleChanges {sent : List Message} (h : Answers inPort sent) :
    ruleChanges sent = [] := by
  obtain ⟨out, hsent⟩ := h
  refine List.filterMap_eq_nil_iff.mpr fun m hm => ?_
  rw [List.mem_singleton.mp (hsent hm)]
  rfl

theorem sent_dispatch_of_ok (t : Gateway) {p : Passage} {out : Bytes}
    (hout : writeSegment p.envelope p.ip p.tcp = .ok out) :
    (t.dispatch (.ok p)).sent = [sendOut p.port out, .rule (p.rule t.timeout)] := by
  simp [dispatch, Except.bind, Passage.messages, hout, bind, send, pure, Except.pure,
    ruleMessage, Passage.rule]

theorem sent_dispatch (t : Gateway) (passage : Except WriteError Passage) :
    (t.dispatch passage).sent = [] ∨
      ∃ p out, passage = .ok p ∧ writeSegment p.envelope p.ip p.tcp = .ok out ∧
        (t.dispatch passage).sent = [sendOut p.port out, .rule (p.rule t.timeout)] := by
  cases passage with
  | error cause => exact .inl rfl
  | ok p =>
    cases hout : writeSegment p.envelope p.ip p.tcp with
    | error cause => simp [dispatch, Except.bind, Passage.messages, hout, bind, send]
    | ok out => exact .inr ⟨p, out, rfl, hout, t.sent_dispatch_of_ok hout⟩

/-- A passage through a gateway: what it makes of a segment that comes in on a port, by the entry that
it has or makes for it, and the gateway afterwards. -/
inductive Passes (t : Gateway) (inPort : Int) (s : Segment) : Gateway → Passage → Prop
  | inbound (c : Connection) (entry : Entry) (p : Passage) (hport : inPort = outerPort)
      (hfound : t.findPublic? (.number s.tcp.targetPort) = some (c, entry))
      (hpassage : t.inbound inPort s.ethernet s.ip s.tcp entry = .ok p) :
      Passes t inPort s t p
  | outbound (t' : Gateway) (entry : Entry) (p : Passage) (hport : inPort ≠ outerPort)
      (hentry : t.entryFor (connectionOf s.ip s.tcp) inPort = (t', some entry))
      (hpassage : t'.outbound inPort s.ethernet s.ip s.tcp entry = .ok p) :
      Passes t inPort s t' p

/-- What a packet leads to: the gateway afterwards, and what it sends. -/
inductive Outcome (t : Gateway) (inPort : Int) (data : Bytes) : Gateway → List Message → Prop
  | nothing {sent : List Message} (hsent : Answers inPort sent) : Outcome t inPort data t sent
  | entered {s : Segment} {sent : List Message} (hread : Segment.read? data = some s)
      (hport : inPort ≠ outerPort) (hsent : Answers inPort sent) :
      Outcome t inPort data (t.entryFor (connectionOf s.ip s.tcp) inPort).1 sent
  | passed {s : Segment} {t' : Gateway} {p : Passage} {out : Bytes}
      (hread : Segment.read? data = some s) (hpasses : Passes t inPort s t' p)
      (hout : writeSegment p.envelope p.ip p.tcp = .ok out) :
      Outcome t inPort data t' [sendOut p.port out, .rule (p.rule t'.timeout)]

variable {t' : Gateway} {data : Bytes} {s : Segment}

theorem dispatch_outcome {passage : Except WriteError Passage} (hread : Segment.read? data = some s)
    (hpasses : ∀ p, passage = .ok p → Passes t inPort s t' p) (hnone : Outcome t inPort data t' []) :
    Outcome t inPort data (t'.dispatch passage).state (t'.dispatch passage).sent := by
  rw [state_dispatch]
  obtain hsent | ⟨p, out, hp, hout, hsent⟩ := t'.sent_dispatch passage <;> rw [hsent]
  · exact hnone
  · exact .passed hread (hpasses p hp) hout

theorem passThrough_outcome (hread : Segment.read? data = some s) :
    Outcome t inPort data (t.passThrough inPort s.ethernet s.ip s.tcp).state
      (t.passThrough inPort s.ethernet s.ip s.tcp).sent := by
  by_cases hport : inPort = outerPort
  · simp only [passThrough, if_pos hport]
    cases hfound : t.findPublic? (.number s.tcp.targetPort) with
    | none => exact .nothing answers_nil
    | some found =>
      exact dispatch_outcome hread (fun p hp => .inbound found.1 found.2 p hport hfound hp)
        (.nothing answers_nil)
  · simp only [passThrough, if_neg hport]
    have hentered {sent : List Message} (hsent : Answers inPort sent) :=
      Outcome.entered (t := t) hread hport hsent
    cases hentry : t.entryFor (connectionOf s.ip s.tcp) inPort with
    | mk t' entry? =>
      rw [hentry] at hentered
      cases entry? with
      | none =>
        rw [state_refuse]
        exact hentered (t'.answers_send_map inPort _)
      | some entry =>
        exact dispatch_outcome hread (fun p hp => .outbound t' entry p hport hentry hp)
          (hentered answers_nil)

variable (t)

theorem packetIn_outcome (inPort : Int) (data : Bytes) :
    Outcome t inPort data (t.packetIn inPort data).state (t.packetIn inPort data).sent := by
  fun_cases packetIn t inPort data with
  | case3 f hread _ a _ _ =>
    rw [state_send]
    exact .nothing (t.answers_send_map inPort _)
  | case7 f hread _ tcp ip htcp hip =>
    refine passThrough_outcome (s := ⟨f.ethernet, ip, tcp, f.payload⟩) ?_
    simp [Segment.read?, hread, htcp, hip]
  | _ => exact .nothing answers_nil

theorem state_packetIn (inPort : Int) (data : Bytes) :
    (t.packetIn inPort data).state = t ∨ ∃ s, Segment.read? data = some s ∧ inPort ≠ outerPort ∧
        (t.packetIn inPort data).state = (t.entryFor (connectionOf s.ip s.tcp) inPort).1 := by
  have houtcome := t.packetIn_outcome inPort data
  generalize (t.packetIn inPort data).state = t' at houtcome ⊢
  generalize (t.packetIn inPort data).sent = sent at houtcome
  cases houtcome with
  | nothing _ => exact .inl rfl
  | entered hread hport _ => exact .inr ⟨_, hread, hport, rfl⟩
  | passed hread hpasses _ =>
    cases hpasses with
    | inbound => exact .inl rfl
    | outbound _ _ _ hport hentry _ =>
      exact .inr ⟨_, hread, hport, (congrArg Prod.fst hentry).symm⟩

/-- What an event can do to a gateway: nothing, mark an entry, or provide for a connection from
inside. -/
theorem handle_cases (e : Event) :
    (t.handle e).state = t ∨ (∃ c, (t.handle e).state = t.mark c true) ∨
      ∃ c inPort, (t.handle e).state = (t.entryFor c inPort).1 := by
  cases e with
  | gone report =>
    simp only [handle, flowRemoved]
    cases t.endedConnection? report with
    | none => exact .inl rfl
    | some c => exact .inr (.inl ⟨c, rfl⟩)
  | packet inPort data =>
    obtain hsame | ⟨_, -, -, hstate⟩ := t.state_packetIn inPort data
    · exact .inl hsame
    · exact .inr (.inr ⟨_, _, hstate⟩)

theorem exists_entryFor_eq (c : Connection) (inPort : Int) :
    ∃ table nextPort, (t.entryFor c inPort).1 = { t with table, nextPort } := by
  cases hget : t.table.get? c with
  | some _ =>
    simp only [entryFor, revive, hget]
    exact ⟨_, _, rfl⟩
  | none =>
    simp only [entryFor, revive, hget, connect]
    split <;> exact ⟨_, _, rfl⟩

theorem exists_after_eq (events : List Event) :
    ∃ table nextPort, t.after events = { t with table, nextPort } := by
  apply after_invariant (P := fun t' => ∃ table nextPort, t' = { t with table, nextPort })
    ⟨t.table, t.nextPort, rfl⟩
  rintro t' e ⟨table, nextPort, rfl⟩
  rcases handle_cases _ e with hsame | ⟨c, hmark⟩ | ⟨c, inPort, hentry⟩
  · exact ⟨_, _, hsame⟩
  · exact ⟨_, _, hmark⟩
  · rw [hentry]
    exact exists_entryFor_eq _ c inPort

end Gateway

end Practicum.Net.Switch
