import Mathlib.Data.List.Induction
import Practicum.Net.Switch.Learning

/-!
# The rules of learning switches

A learning switch sends what is for a host to the port on which the host was last seen, and installs
a rule to the same effect. A rule is never taken back: it stays right until its host moves.
-/

namespace Practicum.Net.Switch

open List Learned

/-- A packet that a switch hands to its controller. -/
structure PacketIn where
  switch : Int
  inPort : Int
  data : Bytes
  buffer : Int

variable {e : PacketIn} {switch : Int} {host : Mac}

namespace PacketIn

def source? (e : PacketIn) : Option Mac :=
  (Packet.Frame.read? e.data).map (·.ethernet.source)

def lastSeen (events : List PacketIn) (switch : Int) (host : Mac) : Option Int :=
  ((events.filter fun e => e.switch = switch ∧ e.source? = some host).getLast?).map inPort

theorem lastSeen_append (before after : List PacketIn) (switch : Int) (host : Mac) :
    lastSeen (before ++ after) switch host =
      (lastSeen after switch host).or (lastSeen before switch host) := by
  rw [lastSeen, filter_append, getLast?_append, Option.map_or]
  rfl

theorem lastSeen_singleton : lastSeen [e] switch host =
    if e.switch = switch ∧ e.source? = some host then some e.inPort else none := by
  unfold lastSeen
  split <;> simp_all

/-- Where a host was last seen stays the answer until the host is seen elsewhere. -/
theorem lastSeen_append_eq_iff {before after : List PacketIn} {port : Int}
    (h : lastSeen before switch host = some port) :
    lastSeen (before ++ after) switch host = some port ↔
      ∀ q, lastSeen after switch host = some q → q = port := by
  rw [lastSeen_append, h]
  cases lastSeen after switch host <;> simp

end PacketIn

/-- Controlled switches with their rules. A rule replaces the one with the same match. -/
structure Controlled where
  learned : Learned := []
  rules : Table (Int × Match) (List Action) := []

namespace Controlled

open PacketIn

def obey (switch : Int) (rules : Table (Int × Match) (List Action)) :
    Message → Table (Int × Match) (List Action)
  | .packetOut .. => rules
  | .rule change =>
    match change.command with
    | .add => rules.put (switch, change.fields) change.actions
    | .delete => rules.filter fun (key, _) => key ≠ (switch, change.fields)

def receive (n : Controlled) (e : PacketIn) : Controlled :=
  match n.learned.packetIn e.switch e.inPort e.data e.buffer with
  | .error _ => n
  | .ok (learned, sent) => { learned, rules := sent.foldl (obey e.switch) n.rules }

def run (events : List PacketIn) : Controlled :=
  events.foldl receive {}

variable {events : List PacketIn} {n : Controlled}
variable {fields : Match} {actions : List Action}

theorem run_concat (events : List PacketIn) (e : PacketIn) :
    run (events ++ [e]) = (run events).receive e :=
  foldl_append ..

theorem hosts_receive : ((n.receive e).learned.hosts switch).get? host =
    (lastSeen [e] switch host).or ((n.learned.hosts switch).get? host) := by
  rw [lastSeen_singleton]
  unfold receive packetIn source?
  cases Packet.Frame.read? e.data with
  | none => simp
  | some frame =>
    simp only [learn, hosts, Table.get?_put, Option.map_some, Option.some.injEq]
    by_cases hswitch : e.switch = switch <;> by_cases hhost : frame.ethernet.source = host <;>
      simp [hswitch, hhost, Table.get?_put]

/-- The tables of the controller say where each host was last seen. -/
theorem hosts_run (events : List PacketIn) (switch : Int) (host : Mac) :
    ((run events).learned.hosts switch).get? host = lastSeen events switch host := by
  induction events using List.reverseRecOn with
  | nil => rfl
  | append_singleton events e ih => rw [run_concat, hosts_receive, ih, lastSeen_append]

/-- The match of the rule for the packets that one host sends to another from a port. -/
def ruleMatch (inPort : Int) (source target : Mac) : Match :=
  [(.inPort, .number inPort), (.ethTarget, .mac (.ofMac target)), (.ethSource, .mac (.ofMac source))]

theorem foldl_obey_forward (l : Learned) (switch inPort buffer : Int) (source target : Mac)
    (data : Bytes) (rules : Table (Int × Match) (List Action)) :
    (l.forward switch inPort buffer source target data).foldl (obey switch) rules =
      if l.portFor switch target = floodPort then rules
      else rules.put (switch, ruleMatch inPort source target)
        [.output (l.portFor switch target)] := by
  by_cases hport : l.portFor switch target = floodPort <;> by_cases hbuffer : buffer = noBuffer <;>
    simp [forward, obey, ruleMatch, hport, hbuffer]

theorem get?_hosts_of_portFor {l : Learned} (h : l.portFor switch host ≠ floodPort) :
    (l.hosts switch).get? host = some (l.portFor switch host) := by
  unfold portFor at h ⊢
  cases hport : (l.hosts switch).get? host with
  | none => simp [hport] at h
  | some port => rfl

/-- A packet changes at most the rule of its own match, and that to the port of its target. -/
theorem of_receive (h : (n.receive e).rules.get? (switch, fields) = some actions)
    (hnew : n.rules.get? (switch, fields) ≠ some actions) :
    e.switch = switch ∧ ∃ source target port,
      fields = ruleMatch e.inPort source target ∧ actions = [.output port] ∧
      ((n.receive e).learned.hosts switch).get? target = some port := by
  unfold receive packetIn at h ⊢
  cases hread : Packet.Frame.read? e.data with
  | none =>
    rw [hread] at h
    exact absurd h hnew
  | some frame =>
    simp only [hread, foldl_obey_forward] at h ⊢
    split at h
    · exact absurd h hnew
    next hport =>
      rw [Table.get?_put] at h
      split at h
      next hkey =>
        cases hkey
        cases h
        exact ⟨rfl, _, _, _, rfl, rfl, get?_hosts_of_portFor hport⟩
      · exact absurd h hnew

theorem installed_of_run (h : (run events).rules.get? (switch, fields) = some actions) :
    ∃ before e after source target port, events = before ++ [e] ++ after ∧ e.switch = switch ∧
      fields = ruleMatch e.inPort source target ∧ actions = [.output port] ∧
      lastSeen (before ++ [e]) switch target = some port := by
  induction events using List.reverseRecOn with
  | nil => cases h
  | append_singleton events e ih =>
    rw [run_concat] at h
    by_cases hold : (run events).rules.get? (switch, fields) = some actions
    · obtain ⟨before, e0, after, source, target, port, rfl, hrule⟩ := ih hold
      exact ⟨before, e0, after ++ [e], source, target, port, by simp, hrule⟩
    · obtain ⟨hswitch, source, target, port, hfields, hactions, hhosts⟩ := of_receive h hold
      rw [← run_concat, hosts_run] at hhosts
      exact ⟨events, e, [], source, target, port, by simp, hswitch, hfields, hactions, hhosts⟩

/-- Every rule sends packets to the port on which its target was last seen when the rule was
installed. It is right afterwards exactly as long as the target is not seen on another port. -/
theorem rule_right_iff_not_moved (h : (run events).rules.get? (switch, fields) = some actions) :
    ∃ before e after source target port, events = before ++ [e] ++ after ∧ e.switch = switch ∧
      fields = ruleMatch e.inPort source target ∧ actions = [.output port] ∧
      lastSeen (before ++ [e]) switch target = some port ∧
      (lastSeen events switch target = some port ↔
        ∀ q, lastSeen after switch target = some q → q = port) := by
  obtain ⟨before, e, after, source, target, port, rfl, hswitch, hfields, hactions, hseen⟩ :=
    installed_of_run h
  exact ⟨before, e, after, source, target, port, rfl, hswitch, hfields, hactions, hseen,
    lastSeen_append_eq_iff hseen⟩

/-- What a message does with the packet that was handed over: a rule also takes effect on a packet
that waits in a buffer of the switch. -/
def applied : Message → List Action
  | .packetOut _ _ actions _ => actions
  | .rule change => if change.buffer = noBuffer then [] else change.actions

theorem applied_forward (l : Learned) (switch inPort buffer : Int) (source target : Mac)
    (data : Bytes) : (l.forward switch inPort buffer source target data).flatMap applied =
        [.output (l.portFor switch target)] ∧
      ((∃ change, .rule change ∈ l.forward switch inPort buffer source target data) ↔
        l.portFor switch target ≠ floodPort) := by
  by_cases hport : l.portFor switch target = floodPort <;> by_cases hbuffer : buffer = noBuffer <;>
    simp [forward, applied, hport, hbuffer]

theorem lastSeen_filter (events : List PacketIn) (switch : Int) (host : Mac) :
    lastSeen (events.filter (·.switch = switch)) switch host = lastSeen events switch host := by
  unfold lastSeen
  rw [filter_filter]
  congr! 3
  grind

/-- A packet goes to the port on which its target was last seen, the packet itself included, and to
all ports if there is none. A rule is installed exactly if it does not go to all ports. Only the
packets of the same switch matter. -/
theorem forwarded_to_lastSeen (events : List PacketIn) (e : PacketIn) {frame : Packet.Frame}
    (hread : Packet.Frame.read? e.data = some frame) :
    let port := (lastSeen (events ++ [e]) e.switch frame.ethernet.target).getD floodPort
    ∃ learned sent,
      (run events).learned.packetIn e.switch e.inPort e.data e.buffer = .ok (learned, sent) ∧
      sent.flatMap applied = [.output port] ∧
      ((∃ change, .rule change ∈ sent) ↔ port ≠ floodPort) ∧
      ∀ others : List PacketIn,
        others.filter (·.switch = e.switch) = events.filter (·.switch = e.switch) →
        ((run others).learned.packetIn e.switch e.inPort e.data e.buffer).map Prod.snd =
          .ok sent := by
  let learned (others : List PacketIn) : Learned :=
    (run others).learned.learn e.switch frame.ethernet.source e.inPort
  have hport : ∀ others, (learned others).portFor e.switch frame.ethernet.target =
      (lastSeen (others ++ [e]) e.switch frame.ethernet.target).getD floodPort := by
    intro others
    rw [← hosts_run, run_concat]
    unfold receive packetIn
    rw [hread]
    rfl
  refine ⟨learned events, _, by simp only [packetIn, hread]; rfl, ?_, ?_, fun others hothers => ?_⟩
  · rw [← hport]
    exact (applied_forward ..).1
  · rw [← hport]
    exact (applied_forward ..).2
  · have hsame : (learned others).portFor e.switch frame.ethernet.target =
        (learned events).portFor e.switch frame.ethernet.target := by
      rw [hport, hport, lastSeen_append, lastSeen_append, ← lastSeen_filter others, hothers,
        lastSeen_filter]
    simp only [packetIn, hread, Except.map, forward]
    rw [hsame]

/-- A packet from one host to another, of the hosts with the addresses 1, 2, … -/
def between (source target : UInt8) (inPort : Int) : PacketIn :=
  { switch := 1, inPort, buffer := noBuffer
    data := [0, 0, 0, 0, 0, target, 0, 0, 0, 0, 0, source, 0x99, 0x99, 0x45] }

theorem rule_right_iff_not_moved_pair :
    (run [between 1 9 1, between 2 1 2]).rules.get? (1, ruleMatch 2 ⟨2⟩ ⟨1⟩) = some [.output 1] ∧
      ∃ before e after source target port, [between 1 9 1, between 2 1 2] = before ++ [e] ++ after ∧
        e.switch = 1 ∧ ruleMatch 2 ⟨2⟩ ⟨1⟩ = ruleMatch e.inPort source target ∧
        [Action.output 1] = [.output port] ∧ lastSeen (before ++ [e]) 1 target = some port ∧
        (lastSeen [between 1 9 1, between 2 1 2] 1 target = some port ↔
          ∀ q, lastSeen after 1 target = some q → q = port) :=
  have hrule : (run [between 1 9 1, between 2 1 2]).rules.get? (1, ruleMatch 2 ⟨2⟩ ⟨1⟩) =
      some [.output 1] := by decide +kernel
  ⟨hrule, rule_right_iff_not_moved hrule⟩

theorem forwarded_to_lastSeen_pair :
    ∃ learned sent, (run [between 1 9 1]).learned.packetIn 1 2 (between 2 1 2).data noBuffer =
        .ok (learned, sent) ∧
      sent.flatMap applied = [.output 1] := by
  have hread : Packet.Frame.read? (between 2 1 2).data =
      some { ethernet := ⟨⟨1⟩, ⟨2⟩, 0x9999⟩, payload := [0x45] } := by decide +kernel
  obtain ⟨learned, sent, hin, hdone, -⟩ := forwarded_to_lastSeen [between 1 9 1] (between 2 1 2) hread
  exact ⟨learned, sent, hin, hdone⟩

/-- The rule for the packets to a host that has moved leads to the port that the host left. -/
theorem rule_wrong_after_move :
    (run [between 1 9 1, between 2 1 2, between 1 2 3]).rules.get? (1, ruleMatch 2 ⟨2⟩ ⟨1⟩) =
        some [.output 1] ∧
      lastSeen [between 1 9 1, between 2 1 2, between 1 2 3] 1 ⟨1⟩ = some 3 := by
  decide +kernel

end Controlled

end Practicum.Net.Switch
